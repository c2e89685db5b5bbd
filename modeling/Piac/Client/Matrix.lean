/-
# Client.Matrix — the matrix client

The functions of the matrix thread and the callbacks it leaves with mtxclient, as
programs over the globals of `cli_matrix_thread.cpp`. A program that throws leaves
behind what it did until then. A client of mtxclient keeps the requests it was given
(`sent`), and the callbacks that wait for their answers with something they need
(`pending`): that of a claim has a copy of the device whose keys were claimed, that of a new
room only references to the user and the message that were typed. What olm draws at random,
a fresh account or a fresh group session, is an argument.

The callback of `invite_room` captures `room_id`, `usr` and `msg` by reference, and all three are
gone when `matrix_message` has returned. So `createdRoom` takes what the callback reads there as
arguments, and `Pending.createRoom` says what was typed, not what the callback has.

Logging is left out, `print_errors` included.
-/
import Piac.Client.Storage

namespace Piac.Matrix

set_option autoImplicit false

open Piac.Theory.CppString Piac.Theory

/-! ## Globals -/

/-- `mtx::crypto::OlmClient`. -/
structure OlmClient (O : Mtx) where
  account : O.Account
  userId : Bytes
  deviceId : Bytes

/-- The content of an encrypted room message. -/
structure Encrypted where
  ciphertext : Bytes
  senderKey : Bytes
  sessionId : Bytes
  deviceId : Bytes
  algorithm : Bytes
  deriving DecidableEq

/-- What is handed to the server. -/
inductive Act where
  | login (username password : Bytes)
  | uploadKeys
  | sync (since : Bytes)
  | joinRoom (roomId : Bytes)
  | queryKeys (userId : Bytes)
  | createRoom (name topic : Bytes) (invite : List Bytes)
  | inviteUser (roomId userId : Bytes)
  | claimKeys (userId deviceId : Bytes)
  /-- `send_to_device` with a room key, encrypted in `content`. The message for a known
  session names the entry of the user in the member map, a pair, in place of the user
  (`entry`). -/
  | toDevice (entry : Bool) (userId deviceId : Bytes) (payload : RoomKey) (content : Bytes)
  | roomMessage (roomId : Bytes) (data : Encrypted)
  deriving DecidableEq

/-- The callbacks of requests under way. -/
inductive Pending where
  /-- A room has been asked for to send this message to this user. -/
  | createRoom (usr msg : Bytes)
  | claimKeys (member dev : Bytes) (payload : RoomKey)
  deriving DecidableEq

/-- `mtx::http::Client`. -/
structure HttpClient where
  server : Bytes
  port : Int
  userId : Bytes
  deviceId : Bytes
  accessToken : Bytes
  nextBatch : Bytes
  sent : List Act
  pending : List Pending
  deriving DecidableEq

structure World (O : Mtx) where
  storage : Storage O
  mtxclient : Option HttpClient
  olmclient : Option (OlmClient O)
  matrixUser : Bytes
  accountDb : Bytes
  sessionDb : Bytes
  storageKey : Bytes
  connected : Bool
  shutdown : Bool
  disk : Bytes → Option Bytes

variable {O : Mtx}

abbrev Op (O : Mtx) := EStateM Thrown (World O)

/-- `g_mtxclient->`. -/
def mtxclient : Op O HttpClient := do
  match (← get).mtxclient with
  | some client => return client
  | none => throw .nullMtxclient

/-- `g_olmclient->`. -/
def olmclient : Op O (OlmClient O) := do
  match (← get).olmclient with
  | some client => return client
  | none => throw .nullOlmclient

def setAccount (account : O.Account) : Op O Unit :=
  modify fun w => { w with olmclient := w.olmclient.map fun client => { client with account } }

/-- A call of `g_mtxclient`. -/
def changeClient (f : HttpClient → HttpClient) : Op O Unit := do
  let client ← mtxclient
  modify fun w => { w with mtxclient := some (f client) }

def request (act : Act) : Op O Unit :=
  changeClient fun client => { client with sent := client.sent ++ [act] }

/-- A request with a callback that holds on to something. -/
def requestWith (act : Act) (callback : Pending) : Op O Unit :=
  changeClient fun client =>
    { client with sent := client.sent ++ [act], pending := client.pending ++ [callback] }

def changeStorage (f : Storage O → Storage O) : Op O Unit :=
  modify fun w => { w with storage := f w.storage }

def olmAlgo : Bytes := bytes "m.olm.v1.curve25519-aes-sha2"

/-! ## Device keys -/

/-- The keys of the users asked for, by user and device. -/
abbrev QueryKeys := StdMap (StdMap DeviceKeys)

def curveIndex (deviceId : Bytes) : Bytes := bytes "curve25519:" ++ deviceId

def edIndex (deviceId : Bytes) : Bytes := bytes "ed25519:" ++ deviceId

/-- The keys of a device are kept if it has none yet. -/
def keepKeys (keyStruct : DeviceKeys) (curve25519 : Bytes) : Op O Unit := do
  if !(← get).storage.deviceKeys.contains keyStruct.deviceId then
    match keyStruct.keys.get? (edIndex keyStruct.deviceId) with
    | none => throw .outOfRange
    | some ed25519 => changeStorage fun s =>
        { s with deviceKeys := s.deviceKeys.set keyStruct.deviceId ⟨ed25519, curve25519⟩ }

/-- The loop of `save_device_keys` over the devices of one user; the list so far. -/
def saveDevices : List Bytes → List (Bytes × DeviceKeys) → Op O (List Bytes)
  | deviceList, [] => return deviceList
  | deviceList, (_, keyStruct) :: rest =>
      match keyStruct.keys.get? (curveIndex keyStruct.deviceId) with
      | none => saveDevices deviceList rest
      | some curve25519 => do
          keepKeys keyStruct curve25519
          saveDevices (deviceList ++ [keyStruct.deviceId]) rest

/-- `save_device_keys`. -/
def saveDeviceKeys : List (Bytes × StdMap DeviceKeys) → Op O Unit
  | [] => return
  | (userId, devices) :: rest => do
      let deviceList ← saveDevices [] devices.entries
      changeStorage fun s => { s with devices := s.devices.set userId deviceList }
      saveDeviceKeys rest

/-- The request of `get_device_keys`. -/
def getDeviceKeys (user : Bytes) : Op O Unit := request (.queryKeys user)

/-- The check of one device; a signature that does not verify is a warning. -/
def verifyDevice (userId : Bytes) (device : Bytes × DeviceKeys) : Op O Unit :=
  match O.verifyIdentitySignature device.2 device.1 userId with
  | .answer _ => return
  | .olmException => return
  | .otherException => throw .verification

/-- The loops of `get_device_keys` over what came back. -/
def verifyDevices (deviceKeys : QueryKeys) : Op O Unit :=
  deviceKeys.entries.forM fun user => user.2.entries.forM (verifyDevice user.1)

/-- The callback of `get_device_keys`; `none` is an error. -/
def queriedKeys (res : Option QueryKeys) : Op O Unit :=
  match res with
  | none => return
  | some deviceKeys => do
      verifyDevices deviceKeys
      saveDeviceKeys deviceKeys.entries

/-! ## Messages to a user -/

/-- `send_group_message`: the session after it has encrypted the message. -/
def sendGroupMessage (session : Option O.Outbound) (sessionId roomId msg : Bytes) :
    Op O O.Outbound := do
  let olm ← olmclient
  match O.dump roomId msg, session with
  | none, _ => throw .json
  | some _, none => throw .nullSession
  | some doc, some session =>
      let (ciphertext, session) := O.encryptGroupMessage session doc
      let client ← mtxclient
      request (.roomMessage roomId
        { ciphertext, senderKey := (O.identityKeys olm.account).curve25519, sessionId,
          deviceId := client.deviceId, algorithm := olmAlgo })
      return session

/-- What `create_outbound_megolm_session` does for one device of a member. -/
def shareRoomKey (payload : RoomKey) (member dev : Bytes) : Op O Unit := do
  changeStorage fun s => { s with deviceKeys := s.deviceKeys.touch dev ⟨[], []⟩ }
  let s := (← get).storage
  let keys := (s.deviceKeys.get? dev).getD ⟨[], []⟩
  match s.olmOutboundSessions.get? keys.curve25519 with
  | some session =>
      let olm ← olmclient
      let (content, session) := O.createOlmEncryptedContent olm.account session payload member keys
      changeStorage fun s =>
        { s with olmOutboundSessions := s.olmOutboundSessions.set keys.curve25519 session }
      request (.toDevice true member dev payload content)
  | none => requestWith (.claimKeys member dev) (.claimKeys member dev payload)

/-- What the callback of a claim does with one key that came back, `none` if there is none in
its object. -/
def claimedKey (member dev : Bytes) (payload : RoomKey) (otk : Option Bytes) : Op O Unit :=
  match otk with
  | none => throw .json
  | some otk => do
      changeStorage fun s => { s with deviceKeys := s.deviceKeys.touch dev ⟨[], []⟩ }
      let keys := ((← get).storage.deviceKeys.get? dev).getD ⟨[], []⟩
      let olm ← olmclient
      match O.createOutboundSession olm.account keys.curve25519 otk with
      | none => throw .olm
      | some session =>
          let (content, session) :=
            O.createOlmEncryptedContent olm.account session payload member keys
          changeStorage fun s =>
            { s with olmOutboundSessions := s.olmOutboundSessions.set keys.curve25519 session }
          request (.toDevice false member dev payload content)

/-- The one-time keys of a claim, by user and device. -/
abbrev ClaimKeys := StdMap (StdMap (Option Bytes))

/-- The callback of a claim; `none` is an error. -/
def claimedKeys (member dev : Bytes) (payload : RoomKey) (res : Option ClaimKeys) : Op O Unit :=
  match res with
  | none => return
  | some oneTimeKeys =>
      match oneTimeKeys.get? member with
      | none => throw .outOfRange
      | some retrieved => retrieved.entries.forM fun rd => claimedKey member dev payload rd.2

/-- The two loops of `create_outbound_megolm_session`, over the members of the room. -/
def shareRoomKeys (payload : RoomKey) : List (Bytes × Bool) → Op O Unit
  | [] => return
  | member :: rest => do
      changeStorage fun s => { s with devices := s.devices.touch member.1 [] }
      let devices := ((← get).storage.devices.get? member.1).getD []
      devices.forM (shareRoomKey payload member.1)
      shareRoomKeys payload rest

def roomKeyFor (O : Mtx) (roomId : Bytes) (session : O.Outbound) : RoomKey :=
  { algorithm := olmAlgo, roomId, sessionId := O.sessionId session,
    sessionKey := O.sessionKey session }

/-- `create_outbound_megolm_session` with the session that olm makes. -/
def createOutboundMegolmSession (roomId msg : Bytes) (fresh : O.Outbound) : Op O Unit := do
  let _ ← olmclient
  match (← get).storage.members.get? roomId with
  | none => return
  | some members => do
      shareRoomKeys (roomKeyFor O roomId fresh) members.entries
      let session ← sendGroupMessage (some fresh) (O.sessionId fresh) roomId msg
      changeStorage fun s => s.setOutboundGroupSession roomId session
        ⟨O.sessionId fresh, O.sessionKey fresh, 0⟩

/-- The name of a room that `invite_room` asks for. -/
def roomName (me usr : Bytes) : Bytes := bytes "Conversation between " ++ me ++ bytes " and " ++ usr

/-- `invite_room`; mtxclient dumps the request before it sends it. -/
def inviteRoom (usr ad msg : Bytes) : Op O Unit := do
  let me := (← get).matrixUser
  let _ ← mtxclient
  if dumps [roomName me usr, ad, usr] then
    requestWith (.createRoom (roomName me usr) ad [usr]) (.createRoom usr msg)
  else throw .json

/-- The callback of `invite_room`, with what it reads through its references. -/
def createdRoom (usr msg roomId : Bytes) (fresh : O.Outbound) : Op O Unit := do
  request (.inviteUser roomId usr)
  createOutboundMegolmSession roomId msg fresh

/-- `matrix_message`. -/
def matrixMessage (usr ad msg : Bytes) : Op O Unit := do
  let w ← get
  let roomId := w.storage.inRoom w.matrixUser usr
  if roomId = [] then inviteRoom usr ad msg
  else do
    changeStorage fun s => s.touchOutboundGroupSession roomId
    let s := (← get).storage
    let session := (s.outboundGroupSessions.get? roomId).getD none
    let data := (s.outboundGroupSessionData.get? roomId).getD ⟨[], [], 0⟩
    let session ← sendGroupMessage session data.sessionId roomId msg
    changeStorage fun s =>
      { s with outboundGroupSessions := s.outboundGroupSessions.set roomId (some session) }

end Piac.Matrix
