/-
# Client.Storage — what the matrix client keeps of its sessions

`Storage` has the eleven fields of `g_storage`, `Storage.load` fills it from a session
file and `Storage.save` writes one. The file is a `SessionFile`, the members of a
JSON object; `Mtx` collects what the client calls of mtxclient, olm and the JSON
library, which are not part of the repository.

`load` assigns four maps, merges five, and takes the device id and the access token
only if the file has them; `save` never writes those two.
-/
import Piac.Daemon.StringUtil
import Piac.Theory.OrdMap

namespace Piac.Matrix

set_option autoImplicit false

open Piac.Theory.CppString Piac.Theory

/-- `std::map< std::string, … >`. -/
abbrev StdMap (α : Type) := OrdMap Bytes α

structure OutboundSessionData where
  sessionId : Bytes
  sessionKey : Bytes
  messageIndex : Nat
  deriving DecidableEq

structure DevKeys where
  ed25519 : Bytes
  curve25519 : Bytes
  deriving DecidableEq

/-- A member of a JSON object, read as some type. -/
inductive Field (α : Type) where
  | absent
  | malformed
  | value (a : α)
  deriving DecidableEq

/-- The object in a session file; sessions are pickled. -/
structure SessionFile where
  deviceId : Field Bytes
  accessToken : Field Bytes
  devices : Field (StdMap (List Bytes))
  deviceKeys : Field (StdMap DevKeys)
  encryptedRooms : Field (StdMap Bool)
  members : Field (StdMap (StdMap Bool))
  olmInboundSessions : Field (StdMap Bytes)
  olmOutboundSessions : Field (StdMap Bytes)
  inboundGroupSessions : Field (StdMap Bytes)
  outboundGroupSessions : Field (StdMap Bytes)
  outboundGroupSessionData : Field (StdMap OutboundSessionData)
  deriving DecidableEq

/-- What a `m.room_key` event carries. -/
structure RoomKey where
  algorithm : Bytes
  roomId : Bytes
  sessionId : Bytes
  sessionKey : Bytes
  deriving DecidableEq

/-- The keys of a device as the server hands them out. -/
structure DeviceKeys where
  userId : Bytes
  deviceId : Bytes
  keys : StdMap Bytes
  signatures : StdMap (StdMap Bytes)
  deriving DecidableEq

/-- What `verify_identity_signature` ends in: an answer, `olm_exception`, or another
exception. -/
inductive Verdict where
  | answer (ok : Bool)
  | olmException
  | otherException
  deriving DecidableEq

/-- What the client is built against. A session changes with each message it encrypts or
decrypts; `none` is an exception. -/
structure Mtx where
  Account : Type
  /-- `OlmSession`, `OlmInboundGroupSession` and `OlmOutboundGroupSession`. -/
  Session : Type
  Inbound : Type
  Outbound : Type
  /-- `json::parse( text ).at( "account" )`. -/
  parseAccount : Bytes → Option Bytes
  dumpAccount : Bytes → Bytes
  parseSession : Bytes → Option SessionFile
  dumpSession : SessionFile → Bytes
  isJson : Bytes → Bool
  /-- `room_id`, `session_id` and `session_key` in the content of a plain text. -/
  roomKeyOf : Bytes → Option (Bytes × Bytes × Bytes)
  /-- The text of an `m.room.message` event with a room id and a body, if both are UTF-8. -/
  document : Bytes → Bytes → Bytes
  loadAccount : Bytes → Bytes → Option Account
  saveAccount : Account → Bytes → Bytes
  identityKeys : Account → DevKeys
  generateOneTimeKeys : Nat → Account → Account
  markKeysAsPublished : Account → Account
  pickleSession : Session → Bytes → Bytes
  unpickleSession : Bytes → Bytes → Option Session
  pickleInbound : Inbound → Bytes → Bytes
  unpickleInbound : Bytes → Bytes → Option Inbound
  pickleOutbound : Outbound → Bytes → Bytes
  unpickleOutbound : Bytes → Bytes → Option Outbound
  createInboundSession : Account → Bytes → Option (Account × Session)
  matchesInboundSessionFrom : Session → Bytes → Bytes → Bool
  decryptMessage : Session → Nat → Bytes → Option (Session × Bytes)
  initInboundGroupSession : Bytes → Option Inbound
  decryptGroupMessage : Inbound → Bytes → Option Inbound
  /-- `content.body` of what a group message is decrypted to. -/
  bodyOf : Inbound → Bytes → Option Bytes
  sessionId : Outbound → Bytes
  sessionKey : Outbound → Bytes
  encryptGroupMessage : Outbound → Bytes → Bytes × Outbound
  createOutboundSession : Account → Bytes → Bytes → Option Session
  createOlmEncryptedContent : Account → Session → RoomKey → Bytes → DevKeys → Bytes × Session
  verifyIdentitySignature : DeviceKeys → Bytes → Bytes → Verdict

/-- `json::dump` takes strings that are UTF-8 and throws on any other. -/
def dumps (texts : List Bytes) : Bool := texts.all utf8

/-- `doc.dump()` of an `m.room.message` event. -/
def Mtx.dump (O : Mtx) (roomId msg : Bytes) : Option Bytes :=
  if dumps [roomId, msg] then some (O.document roomId msg) else none

theorem Mtx.dump_eq {O : Mtx} {roomId msg : Bytes} (plain : dumps [roomId, msg] = true) :
    O.dump roomId msg = some (O.document roomId msg) := if_pos plain

theorem Mtx.dump_none {O : Mtx} {roomId msg : Bytes} (odd : ¬ dumps [roomId, msg] = true) :
    O.dump roomId msg = none := if_neg odd

/-- What ends a function of the client before its end. -/
inductive Thrown where
  /-- `nlohmann::json::exception`. -/
  | json
  /-- `mtx::crypto::olm_exception`. -/
  | olm
  /-- `std::out_of_range`. -/
  | outOfRange
  /-- Another exception of `verify_identity_signature`. -/
  | verification
  /-- The use of a null pointer. -/
  | nullMtxclient
  | nullOlmclient
  | nullSession
  deriving DecidableEq

variable (O : Mtx)

structure Storage where
  deviceId : Bytes
  accessToken : Bytes
  devices : StdMap (List Bytes)
  deviceKeys : StdMap DevKeys
  encryptedRooms : StdMap Bool
  members : StdMap (StdMap Bool)
  olmInboundSessions : StdMap O.Session
  olmOutboundSessions : StdMap O.Session
  inboundGroupSessions : StdMap O.Inbound
  outboundGroupSessionData : StdMap OutboundSessionData
  /-- `none` is the null pointer that `operator[]` adds. -/
  outboundGroupSessions : StdMap (Option O.Outbound)

variable {O}

namespace Storage

/-- `g_storage` when the process starts. -/
def init : Storage O :=
  { deviceId := [], accessToken := [], devices := .empty, deviceKeys := .empty,
    encryptedRooms := .empty, members := .empty, olmInboundSessions := .empty,
    olmOutboundSessions := .empty, inboundGroupSessions := .empty,
    outboundGroupSessionData := .empty, outboundGroupSessions := .empty }

def addMember (s : Storage O) (roomId userId : Bytes) : Storage O :=
  { s with members := s.members.set roomId (((s.members.get? roomId).getD .empty).set userId true) }

/-- The first room of two users, or the empty string. -/
def inRoom (s : Storage O) (usr1 usr2 : Bytes) : Bytes :=
  ((s.members.entries.find? fun room => room.2.contains usr1 && room.2.contains usr2).map
    Prod.fst).getD []

def setOutboundGroupSession (s : Storage O) (roomId : Bytes) (session : O.Outbound)
    (data : OutboundSessionData) : Storage O :=
  { s with outboundGroupSessionData := s.outboundGroupSessionData.set roomId data
           outboundGroupSessions := s.outboundGroupSessions.set roomId (some session) }

/-- `operator[]` of both maps. -/
def touchOutboundGroupSession (s : Storage O) (roomId : Bytes) : Storage O :=
  { s with outboundGroupSessions := s.outboundGroupSessions.touch roomId none
           outboundGroupSessionData := s.outboundGroupSessionData.touch roomId ⟨[], [], 0⟩ }

/-- The key of an inbound group session. -/
def inboundKey (roomId sessionId senderKey : Bytes) : Bytes := roomId ++ sessionId ++ senderKey

/-! ## Loading -/

/-- `obj.at( … ).get< … >()`. -/
def required {α : Type} : Field α → Except Thrown α
  | .value a => .ok a
  | _ => .error .json

/-- The device id and the access token after the `try` block of `load`. -/
def loadCredentials (file : SessionFile) (old : Bytes × Bytes) : Bytes × Bytes :=
  match file.deviceId, file.accessToken with
  | .value deviceId, .value accessToken => (deviceId, accessToken)
  | .value deviceId, _ => (deviceId, old.2)
  | _, _ => old

def loadSession {α : Type} (unpickle : Bytes → Option α) (m : StdMap α) (e : Bytes × Bytes) :
    Except Thrown (StdMap α) :=
  match unpickle e.2 with
  | some session => .ok (m.set e.1 session)
  | none => .error .olm

/-- The pickled sessions of a member, if it is there, set in a map. -/
def loadSessions {α : Type} (unpickle : Bytes → Option α) (old : StdMap α) :
    Field (StdMap Bytes) → Except Thrown (StdMap α)
  | .absent => .ok old
  | .malformed => .error .json
  | .value sessions => sessions.entries.foldlM (loadSession unpickle) old

/-- The session data of a member, if it is there, set in a map. -/
def loadData (old : StdMap OutboundSessionData) :
    Field (StdMap OutboundSessionData) → Except Thrown (StdMap OutboundSessionData)
  | .absent => .ok old
  | .malformed => .error .json
  | .value sessions => .ok (old.merge sessions)

/-- `Storage::load` on the object of a session file. -/
def loadObject (s : Storage O) (key : Bytes) (obj : SessionFile) :
    Except Thrown (Storage O) := do
  let (deviceId, accessToken) := loadCredentials obj (s.deviceId, s.accessToken)
  let devices ← required obj.devices
  let deviceKeys ← required obj.deviceKeys
  let encryptedRooms ← required obj.encryptedRooms
  let members ← required obj.members
  let olmInboundSessions ←
    loadSessions (O.unpickleSession · key) s.olmInboundSessions obj.olmInboundSessions
  let olmOutboundSessions ←
    loadSessions (O.unpickleSession · key) s.olmOutboundSessions obj.olmOutboundSessions
  let inboundGroupSessions ←
    loadSessions (O.unpickleInbound · key) s.inboundGroupSessions obj.inboundGroupSessions
  let outboundGroupSessions ←
    loadSessions (fun p => (O.unpickleOutbound p key).map some) s.outboundGroupSessions
      obj.outboundGroupSessions
  let outboundGroupSessionData ←
    loadData s.outboundGroupSessionData obj.outboundGroupSessionData
  return { deviceId, accessToken, devices, deviceKeys, encryptedRooms, members,
           olmInboundSessions, olmOutboundSessions, inboundGroupSessions,
           outboundGroupSessionData, outboundGroupSessions }

/-- `Storage::load`. A file that cannot be opened or is empty leaves the storage as it
is. -/
def load (s : Storage O) (key : Bytes) (db : Option Bytes) : Except Thrown (Storage O) :=
  match db with
  | none | some [] => .ok s
  | some data =>
      match O.parseSession data with
      | none => .error .json
      | some obj => s.loadObject key obj

/-! ## Saving -/

/-- A member that is written entry by entry, so not at all without entries. -/
def saved {α β : Type} (pickle : α → β) (m : StdMap α) : Field (StdMap β) :=
  if m.entries = [] then .absent else .value (m.mapVal pickle)

/-- The object `Storage::save` writes; a null session cannot be pickled. -/
def save (s : Storage O) (key : Bytes) : Except Thrown SessionFile :=
  if s.outboundGroupSessions.entries.any fun e => e.2.isNone then .error .nullSession
  else .ok
    { deviceId := .absent
      accessToken := .absent
      devices := .value s.devices
      deviceKeys := .value s.deviceKeys
      encryptedRooms := .value s.encryptedRooms
      members := .value s.members
      olmInboundSessions := saved (O.pickleSession · key) s.olmInboundSessions
      olmOutboundSessions := saved (O.pickleSession · key) s.olmOutboundSessions
      inboundGroupSessions := saved (O.pickleInbound · key) s.inboundGroupSessions
      outboundGroupSessions :=
        saved (fun session => (session.map (O.pickleOutbound · key)).getD []) s.outboundGroupSessions
      outboundGroupSessionData := saved id s.outboundGroupSessionData }

end Storage

/-! ## Without cryptography -/

/-- A library for examples: a signature is the key itself, and what is encrypted can be read. -/
def plain : Mtx where
  Account := Nat
  Session := Bytes
  Inbound := Bytes
  Outbound := Nat
  parseAccount := some
  dumpAccount := id
  parseSession _ := none
  dumpSession _ := bytes "{}"
  isJson _ := true
  roomKeyOf _ := none
  document := (· ++ ·)
  loadAccount pickled _ := some pickled.length
  saveAccount account _ := List.replicate account 0
  identityKeys _ := ⟨bytes "identity", bytes "identity"⟩
  generateOneTimeKeys := (· + ·)
  markKeysAsPublished := id
  pickleSession session _ := session
  unpickleSession pickled _ := some pickled
  pickleInbound session _ := session
  unpickleInbound pickled _ := some pickled
  pickleOutbound index _ := List.replicate index 0
  unpickleOutbound pickled _ := some pickled.length
  createInboundSession account body := some (account, body)
  matchesInboundSessionFrom _ _ _ := true
  decryptMessage session _ body := some (session, body)
  initInboundGroupSession := some
  decryptGroupMessage session _ := some session
  bodyOf _ ciphertext := some ciphertext
  sessionId _ := bytes "session"
  sessionKey _ := bytes "key"
  encryptGroupMessage index text := (text, index + 1)
  createOutboundSession _ _ otk := some otk
  createOlmEncryptedContent _ session payload _ _ := (payload.sessionKey, session)
  verifyIdentitySignature deviceKeys dev user :=
    let keyId := bytes "ed25519:" ++ dev
    match (deviceKeys.signatures.get? user).bind (·.get? keyId) with
    | none => .otherException
    | some signature => .answer (deviceKeys.keys.get? keyId = some signature)

end Piac.Matrix
