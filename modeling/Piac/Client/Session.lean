/-
# Client.Session — a matrix login from its start to its end

`open_` is the matrix thread up to its login, `loggedIn` the callback of that, `synced`
those of the sync requests that follow, and `closes` the end of the thread, which writes
the two files of the user. `Event` lists these and the callbacks of `Client.Matrix`;
`step` is one of them, and a run of `step` from `World.init` is a process in which any
users log in one after the other.

A null pointer, and any exception in the matrix thread itself or in the main thread, ends the
process. An exception that leaves a callback ends the callback.
-/
import Piac.Client.Matrix
import Piac.Theory.Transition

namespace Piac.Matrix

set_option autoImplicit false

open Piac.Theory.CppString Piac.Theory Piac.Theory.Transition

variable {O : Mtx}

/-! ## To-device messages -/

/-- An olm message; the type of a ciphertext is next to its body. -/
structure OlmMessage where
  senderKey : Bytes
  sender : Bytes
  ciphertext : StdMap (Bytes × Nat)

/-- The room key of a plain text becomes an inbound group session, unless there is one. -/
def keepRoomKey (senderKey plaintext : Bytes) : Op O Unit := do
  match O.roomKeyOf plaintext with
  | none => throw .json
  | some (roomId, sessionId, sessionKey) =>
      let key := Storage.inboundKey roomId sessionId senderKey
      if !(← get).storage.inboundGroupSessions.contains key then
        match O.initInboundGroupSession sessionKey with
        | none => throw .olm
        | some megolm => changeStorage fun s =>
            { s with inboundGroupSessions := s.inboundGroupSessions.set key megolm }

/-- What `decrypt_olm_message` does with a message of type 0 that is for us. -/
def openSession (senderKey body : Bytes) : Op O Unit := do
  let olm ← olmclient
  match O.createInboundSession olm.account body with
  | none => throw .olm
  | some (account, session) =>
      setAccount account
      if O.matchesInboundSessionFrom session senderKey body then
        match O.decryptMessage session 0 body with
        | none => throw .olm
        | some (session, plaintext) =>
            if O.isJson plaintext then
              -- `emplace` keeps an old session
              changeStorage fun s =>
                { s with olmInboundSessions := s.olmInboundSessions.touch senderKey session }
              keepRoomKey senderKey plaintext
            else throw .json

/-- `decrypt_olm_message`. -/
def decryptOlmMessage (msg : OlmMessage) : Op O Unit := do
  let olm ← olmclient
  let myIdKey := (O.identityKeys olm.account).curve25519
  msg.ciphertext.entries.forM fun cipher => do
    if cipher.1 = myIdKey ∧ cipher.2.2 = 0 then openSession msg.senderKey cipher.2.1

/-- `handle_to_device_msgs`; an event that is no olm message is `none`, and a JSON exception is
caught. -/
def handleToDeviceMsgs (msgs : List (Option OlmMessage)) : Op O Unit :=
  msgs.forM fun msg =>
    match msg with
    | none => return
    | some msg =>
        tryCatch (decryptOlmMessage msg) fun e => if e = .json then return else throw e

/-! ## Sync -/

/-- The events of a room that the client looks at. -/
inductive RoomEvent where
  | encryption
  | member (stateKey : Bytes)
  | encrypted (sessionId senderKey ciphertext : Bytes)
  | other
  deriving DecidableEq

structure JoinedRoom where
  roomId : Bytes
  state : List RoomEvent
  timeline : List RoomEvent

structure SyncResponse where
  invite : List Bytes
  toDevice : List (Option OlmMessage)
  deviceOneTimeKeysCount : List Nat
  join : List JoinedRoom
  nextBatch : Bytes

/-- A member event in either part of a room. -/
def memberEvent (roomId stateKey : Bytes) : Op O Unit := do
  getDeviceKeys stateKey
  changeStorage fun s => s.addMember roomId stateKey

def stateEvent (roomId : Bytes) : RoomEvent → Op O Unit
  | .encryption => changeStorage fun s =>
      { s with encryptedRooms := s.encryptedRooms.set roomId true }
  | .member stateKey => memberEvent roomId stateKey
  | _ => return

def timelineEvent (roomId : Bytes) : RoomEvent → Op O Unit
  | .encrypted sessionId senderKey ciphertext => do
      let key := Storage.inboundKey roomId sessionId senderKey
      match (← get).storage.inboundGroupSessions.get? key with
      | none => return
      | some session =>
          let _ ← olmclient
          match O.decryptGroupMessage session ciphertext with
          | none => throw .olm
          | some next =>
              changeStorage fun s =>
                { s with inboundGroupSessions := s.inboundGroupSessions.set key next }
              match O.bodyOf session ciphertext with
              | none => throw .json
              | some _ => return
  | e => stateEvent roomId e

/-- One of the counts of one-time keys. -/
def refillOneTimeKeys (count : Nat) : Op O Unit := do
  if count < 50 then
    let olm ← olmclient
    setAccount (O.generateOneTimeKeys (50 - count) olm.account)
    request .uploadKeys

/-- `parse_messages`, without the note to the message thread. -/
def parseMessages (res : SyncResponse) : Op O Unit := do
  res.invite.forM fun roomId => request (.joinRoom roomId)
  handleToDeviceMsgs res.toDevice
  res.deviceOneTimeKeysCount.forM refillOneTimeKeys
  res.join.forM fun room => do
    room.state.forM (stateEvent room.roomId)
    room.timeline.forM (timelineEvent room.roomId)

/-- The next request of the sync loop. -/
def syncSince (nextBatch : Bytes) : Op O Unit := do
  changeClient fun client => { client with nextBatch }
  request (.sync nextBatch)

/-- `sync_handler`; `none` is an error. -/
def synced (res : Option SyncResponse) : Op O Unit := do
  match res with
  | none =>
      let client ← mtxclient
      request (.sync client.nextBatch)
  | some res =>
      if (← get).shutdown then return
      parseMessages res
      syncSince res.nextBatch

/-- `initial_sync_handler`; an error may be tried again. -/
def initialSynced (retry : Bool) (res : Option SyncResponse) : Op O Unit := do
  match res with
  | none => if retry then request (.sync [])
  | some res =>
      if (← get).shutdown then return
      parseMessages res
      res.join.forM fun room => room.state.forM fun e =>
        match e with
        | .member stateKey => memberEvent room.roomId stateKey
        | _ => return
      syncSince res.nextBatch

/-! ## Login -/

/-- What the server answers to a login. -/
structure Login where
  userId : Bytes
  deviceId : Bytes
  accessToken : Bytes
  deriving DecidableEq

/-- The device id and the access token if there are both. -/
def both (credentials : Bytes × Bytes) : Option (Bytes × Bytes) :=
  if credentials.1 ≠ [] ∧ credentials.2 ≠ [] then some credentials else none

/-- `set_device_id` and `set_access_token`. -/
def HttpClient.identify (client : HttpClient) (credentials : Bytes × Bytes) : HttpClient :=
  { client with deviceId := credentials.1, accessToken := credentials.2 }

def Storage.identify (s : Storage O) (credentials : Bytes × Bytes) : Storage O :=
  { s with deviceId := credentials.1, accessToken := credentials.2 }

/-- `login_cb`, after mtxclient has taken over what the server answered; `none` is an
error. -/
def loggedIn (res : Option Login) : Op O Unit := do
  match res with
  | none => return
  | some res =>
      let client ← mtxclient
      let s := (← get).storage
      -- what the storage has goes before what the server has just sent
      let credentials := (both (s.deviceId, s.accessToken)).getD (res.deviceId, res.accessToken)
      let client := HttpClient.identify { client with userId := res.userId } credentials
      modify fun w => { w with mtxclient := some client, storage := s.identify credentials }
      let olm ← olmclient
      modify fun w => { w with olmclient := some ⟨O.generateOneTimeKeys 50 olm.account,
        client.userId, client.deviceId⟩ }
      request .uploadKeys

/-- The callback of an upload of keys; the one after the login starts the syncing. -/
def keysUploaded (login ok : Bool) : Op O Unit := do
  if ok then
    let olm ← olmclient
    setAccount (O.markKeysAsPublished olm.account)
    if login then request (.sync [])

/-! ## The thread -/

def accountDbOf (server username : Bytes) : Bytes :=
  bytes "piac-matrix-@" ++ username ++ bytes ":" ++ server ++ bytes ".account.json"

def sessionDbOf (server username : Bytes) : Bytes :=
  bytes "piac-matrix-@" ++ username ++ bytes ":" ++ server ++ bytes ".session.json"

/-- The host and the port of `<host>[:port]`; `none` if the port is no number. -/
def serverOf (server : Bytes) : Option (Bytes × Int) :=
  let (host, prt) := Piac.split server (bytes ":")
  if prt = [] then some (host, 443)
  else match stoi prt with
    | .ok port => some (host, port)
    | .error _ => none

/-- The account and the storage that `matrix_thread` starts with. -/
def loadFiles (storage : Storage O) (key : Bytes) (account session : Option Bytes)
    (fresh : O.Account) : Except Thrown (O.Account × Storage O) :=
  match account.getD [] with
  | [] => .ok (fresh, storage)
  | data => do
      let some pickled := O.parseAccount data | .error .json
      let some account := O.loadAccount pickled key | .error .olm
      let storage ← storage.load key session
      return (account, storage)

/-- `std::make_shared< mtx::http::Client >`. -/
def HttpClient.make (server : Bytes) (port : Int) : HttpClient :=
  { server, port, userId := [], deviceId := [], accessToken := [], nextBatch := [], sent := [],
    pending := [] }

/-- `matrix_thread` up to its login: false if it returns before. -/
def open_ (server username password dbKey : Bytes) (fresh : O.Account) : Op O Bool := do
  let w ← get
  if w.connected then return false
  match serverOf server with
  | none => return false
  | some (host, port) =>
      let accountDb := accountDbOf server username
      let sessionDb := sessionDbOf server username
      set { w with
        mtxclient := some (HttpClient.make host port)
        matrixUser := bytes "@" ++ username ++ bytes ":" ++ host
        olmclient := some { account := fresh, userId := [], deviceId := [] }
        accountDb, sessionDb, storageKey := dbKey }
      match loadFiles w.storage dbKey (w.disk accountDb) (w.disk sessionDb) fresh with
      | .error e => throw e
      | .ok (account, storage) =>
          setAccount account
          modify fun w => { w with storage, connected := true }
          request (.login username password)
          return true

/-- The flags when the login has returned. -/
def leave : Op O Unit := modify fun w => { w with connected := false, shutdown := false }

def writeFile (filename data : Bytes) : Op O Unit :=
  modify fun w => { w with disk := fun name => if name = filename then some data else w.disk name }

/-- The end of `matrix_thread`: the session and the account are written. -/
def saveFiles : Op O Unit := do
  let w ← get
  match w.storage.save w.storageKey with
  | .error e => throw e
  | .ok obj =>
      writeFile w.sessionDb (O.dumpSession obj)
      let olm ← olmclient
      writeFile w.accountDb (O.dumpAccount (O.saveAccount olm.account w.storageKey))

/-! ## Runs -/

variable (O) in
/-- A callback of mtxclient, a message the user types, or an end of the thread. `created` comes
with what the callback of `invite_room` reads in `room_id`, `usr` and `msg` through its dangling
references; where reading them ends the process, no event follows. -/
inductive Event where
  | opens (server username password dbKey : Bytes) (fresh : O.Account)
  | loggedIn (res : Option Login)
  | keysUploaded (login ok : Bool)
  | initialSynced (retry : Bool) (res : Option SyncResponse)
  | synced (res : Option SyncResponse)
  | queriedKeys (res : Option QueryKeys)
  | message (usr ad msg : Bytes)
  | created (i : Nat) (roomId : Bytes) (fresh : O.Outbound) (usr msg : Bytes)
  | claimed (i : Nat) (res : Option ClaimKeys)
  | disconnect
  | closes

variable (O) in
/-- The process at its start, with the files there are. -/
def World.init (disk : Bytes → Option Bytes) : World O :=
  { storage := .init, mtxclient := none, olmclient := none, matrixUser := [], accountDb := [],
    sessionDb := [], storageKey := [], connected := false, shutdown := false, disk }

namespace World

/-- The requests of the client, and the callbacks that wait. -/
def sent (w : World O) : List Act := (w.mtxclient.map HttpClient.sent).getD []

def pending (w : World O) : List Pending := (w.mtxclient.map HttpClient.pending).getD []

end World

/-- The callback that waits under a number is called. -/
def answered (i : Nat) : Op O Unit :=
  changeClient fun client => { client with pending := client.pending.eraseIdx i }

/-- What happens in an event; `none` if it cannot happen. Callbacks come while the client is
open, and it is closed when no request is under way. -/
def program (w : World O) : Event O → Option (Op O Unit)
  | .opens server username password dbKey fresh =>
      some (discard (open_ server username password dbKey fresh))
  | .message usr ad msg => some (matrixMessage usr ad msg)
  | .disconnect => if w.connected then some (modify fun w => { w with shutdown := true }) else none
  | .closes => if w.connected ∧ w.pending = [] then some (do leave; saveFiles) else none
  | .loggedIn res => if w.connected then some (Matrix.loggedIn res) else none
  | .keysUploaded login ok => if w.connected then some (Matrix.keysUploaded login ok) else none
  | .initialSynced retry res =>
      if w.connected then some (Matrix.initialSynced retry res) else none
  | .synced res => if w.connected then some (Matrix.synced res) else none
  | .queriedKeys res => if w.connected then some (Matrix.queriedKeys res) else none
  | .created i roomId fresh usr msg =>
      match w.connected, w.pending[i]? with
      | true, some (.createRoom _ _) => some (do answered i; createdRoom usr msg roomId fresh)
      | _, _ => none
  | .claimed i res =>
      match w.connected, w.pending[i]? with
      | true, some (.claimKeys member dev payload) =>
          some (do answered i; claimedKeys member dev payload res)
      | _, _ => none

/-- The process does not survive the exception: a null pointer, or anything in the thread
itself or in the main thread, where a message is typed. -/
def Fatal : Event O → Thrown → Bool
  | _, .nullMtxclient | _, .nullOlmclient | _, .nullSession => true
  | .opens .., _ | .closes, _ | .message .., _ => true
  | _, _ => false

/-- One event; `none` if it cannot happen or ends the process. -/
def step (w : World O) (e : Event O) : Option (World O) :=
  (program w e).bind fun p =>
    match p.run w with
    | .ok _ w' => some w'
    | .error thrown w' => if Fatal e thrown then none else some w'

end Piac.Matrix
