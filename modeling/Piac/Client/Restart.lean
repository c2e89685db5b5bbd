/-
# Client.Restart — the session file and the login after the next start

The members of a session file as JSON: `objectOf` are the assignments of `Storage::save`
with the conversions of the JSON library and `to_json`, `readObject` the reads of
`Storage::load` with `from_json`. `JsonLibrary` and `Pickles` say what is relied on: a text
that was dumped is parsed back, a pickled session is unpickled with the same key.

* `readObject_objectOf`: a file without malformed members is read back;
* `load_saved`: a fresh storage gets everything that was saved but the device id and the
  access token;
* `storage_survives`: so it is the storage that was saved exactly if it had neither.
-/
import Piac.Theory.JsonTree
import Piac.Client.Steps

namespace Piac.Matrix

set_option autoImplicit false

open Piac.Theory.CppString Piac.Theory Piac.Theory.Json

/-! ## Conversions -/

section Conversions

variable {Num α : Type}

/-- `to_json` of a map. -/
def ofMap (put : α → Value Num) (m : StdMap α) : Value Num :=
  .obj (m.entries.map fun e => (e.1, put e.2))

def setRead (get : Value Num → Option α) (m : StdMap α) (e : Bytes × Value Num) :
    Option (StdMap α) :=
  (get e.2).map (m.set e.1)

/-- `get` of a map. -/
def getMap (get : Value Num → Option α) : Value Num → Option (StdMap α)
  | .obj members => members.foldlM (setRead get) .empty
  | _ => none

/-- `get` of a vector. -/
def getVector (get : Value Num → Option α) : Value Num → Option (List α)
  | .arr items => items.mapM get
  | _ => none

def getBool : Value Num → Option Bool
  | .bool b => some b
  | _ => none

/-- `get< uint64_t >()`; a number that is no integer is truncated. -/
def getUint64 (truncate : Num → Nat) : Value Num → Option Nat
  | .int i => some (i % 2 ^ 64).toNat
  | .num x => some (truncate x)
  | _ => none

/-- `to_json` of an `OutboundSessionData`. -/
def OutboundSessionData.toJson (msg : OutboundSessionData) : Value Num :=
  .obj [(bytes "message_index", .int msg.messageIndex), (bytes "session_id", .str msg.sessionId),
    (bytes "session_key", .str msg.sessionKey)]

/-- `from_json` of an `OutboundSessionData`. -/
def OutboundSessionData.fromJson (truncate : Num → Nat) (obj : Value Num) :
    Option OutboundSessionData := do
  let sessionId ← (← obj.member (bytes "session_id")).asString
  let sessionKey ← (← obj.member (bytes "session_key")).asString
  let messageIndex ← getUint64 truncate (← obj.member (bytes "message_index"))
  return { sessionId, sessionKey, messageIndex }

/-- `to_json` of a `DevKeys`. -/
def DevKeys.toJson (msg : DevKeys) : Value Num :=
  .obj [(bytes "curve25519", .str msg.curve25519), (bytes "ed25519", .str msg.ed25519)]

/-- `from_json` of a `DevKeys`. -/
def DevKeys.fromJson (obj : Value Num) : Option DevKeys := do
  let ed25519 ← (← obj.member (bytes "ed25519")).asString
  let curve25519 ← (← obj.member (bytes "curve25519")).asString
  return { ed25519, curve25519 }

theorem getMap_ofMap {put : α → Value Num} {get : Value Num → Option α} {m : StdMap α}
    (inverse : ∀ e ∈ m.entries, get (put e.2) = some e.2) : getMap get (ofMap put m) = some m := by
  refine OrdMap.foldlM_set fun acc e member => ?_
  show (get (put e.2)).map (acc.set e.1) = _
  rw [inverse e member]
  rfl

theorem getVector_arr (put : α → Value Num) {get : Value Num → Option α}
    (inverse : ∀ a, get (put a) = some a) (items : List α) :
    getVector get (.arr (items.map put)) = some items := by
  show (items.map put).mapM get = some items
  induction items with
  | nil => rfl
  | cons a rest ih => rw [List.map_cons, List.mapM_cons, inverse, ih]; rfl

theorem getUint64_int (truncate : Num → Nat) {n : Nat} (small : n < 2 ^ 64) :
    getUint64 truncate (.int n) = some n := by
  have fits : ((n : Int) % 2 ^ 64).toNat = n := by omega
  exact congrArg some fits

theorem OutboundSessionData.fromJson_toJson (truncate : Num → Nat) {msg : OutboundSessionData}
    (small : msg.messageIndex < 2 ^ 64) :
    OutboundSessionData.fromJson truncate msg.toJson = some msg := by
  have index := getUint64_int truncate small
  show (do
    let messageIndex ← getUint64 truncate (.int msg.messageIndex)
    some { msg with messageIndex }) = some msg
  rw [index]
  rfl

theorem DevKeys.fromJson_toJson (msg : DevKeys) :
    DevKeys.fromJson (msg.toJson : Value Num) = some msg := rfl

end Conversions

/-! ## The object of the file -/

section Object

variable {Num α : Type}

def Field.toJson (put : α → Value Num) : Field α → Option (Value Num)
  | .value a => some (put a)
  | _ => none

/-- `at` and `get`. -/
def readField (get : Value Num → Option α) : Option (Value Num) → Field α
  | none => .absent
  | some v => match get v with
    | some a => .value a
    | none => .malformed

/-- The members, those that are not written without a value. -/
def SessionFile.assigned (file : SessionFile) : List (Bytes × Option (Value Num)) :=
  [(bytes "access_token", file.accessToken.toJson .str),
   (bytes "device_id", file.deviceId.toJson .str),
   (bytes "device_keys", file.deviceKeys.toJson (ofMap DevKeys.toJson)),
   (bytes "devices", file.devices.toJson (ofMap fun list => .arr (list.map .str))),
   (bytes "encrypted_rooms", file.encryptedRooms.toJson (ofMap .bool)),
   (bytes "inbound_group_sessions", file.inboundGroupSessions.toJson (ofMap .str)),
   (bytes "members", file.members.toJson (ofMap (ofMap .bool))),
   (bytes "olm_inbound_sessions", file.olmInboundSessions.toJson (ofMap .str)),
   (bytes "olm_outbound_sessions", file.olmOutboundSessions.toJson (ofMap .str)),
   (bytes "outbound_group_session_data",
     file.outboundGroupSessionData.toJson (ofMap OutboundSessionData.toJson)),
   (bytes "outbound_group_sessions", file.outboundGroupSessions.toJson (ofMap .str))]

/-- The object that `Storage::save` dumps. -/
def objectOf (file : SessionFile) : Value Num :=
  .obj (file.assigned.filterMap fun m => m.2.map fun v => (m.1, v))

/-- The members as `Storage::load` reads them. -/
def readObject (truncate : Num → Nat) (obj : Value Num) : SessionFile where
  deviceId := readField Value.asString (obj.member (bytes "device_id"))
  accessToken := readField Value.asString (obj.member (bytes "access_token"))
  devices := readField (getMap (getVector Value.asString)) (obj.member (bytes "devices"))
  deviceKeys := readField (getMap DevKeys.fromJson) (obj.member (bytes "device_keys"))
  encryptedRooms := readField (getMap getBool) (obj.member (bytes "encrypted_rooms"))
  members := readField (getMap (getMap getBool)) (obj.member (bytes "members"))
  olmInboundSessions :=
    readField (getMap Value.asString) (obj.member (bytes "olm_inbound_sessions"))
  olmOutboundSessions :=
    readField (getMap Value.asString) (obj.member (bytes "olm_outbound_sessions"))
  inboundGroupSessions :=
    readField (getMap Value.asString) (obj.member (bytes "inbound_group_sessions"))
  outboundGroupSessions :=
    readField (getMap Value.asString) (obj.member (bytes "outbound_group_sessions"))
  outboundGroupSessionData :=
    readField (getMap (OutboundSessionData.fromJson truncate))
      (obj.member (bytes "outbound_group_session_data"))

/-- A member is found if its name is given once. -/
theorem lookup_members {members : List (Bytes × Option (Value Num))}
    (once : (members.map Prod.fst).Nodup) {name : Bytes} {v : Option (Value Num)}
    (member : (name, v) ∈ members) :
    (Value.obj (members.filterMap fun m => m.2.map fun v => (m.1, v))).member name = v := by
  show List.lookup name _ = v
  induction members with
  | nil => cases member
  | cons m rest ih =>
      obtain ⟨fresh, onceRest⟩ := List.nodup_cons.mp once
      rcases List.mem_cons.mp member with rfl | later
      · cases v with
        | some v =>
            show List.lookup name ((name, v) :: _) = some v
            rw [List.lookup_cons_self]
        | none =>
            refine List.lookup_eq_none_iff.mpr fun e found => ?_
            obtain ⟨m, listed, eq⟩ := List.mem_filterMap.mp found
            obtain ⟨v, there, rfl⟩ := Option.map_eq_some_iff.mp eq
            have other : name ≠ m.1 := by
              intro same
              rcases List.mem_cons.mp listed with first | inRest
              · rw [first] at there
                cases there
              · exact fresh (List.mem_map.mpr ⟨m, inRest, same.symm⟩)
            simpa using other
      · obtain ⟨first, found⟩ := m
        have other : ¬ name = first := by
          rintro rfl
          exact fresh (List.mem_map.mpr ⟨_, later, rfl⟩)
        have next := ih onceRest later
        cases found with
        | none => exact next
        | some found =>
            show List.lookup name ((first, found) :: _) = v
            rw [List.lookup_cons, beq_false_of_ne other]
            exact next

theorem readField_toJson {put : α → Value Num} {get : Value Num → Option α} {field : Field α}
    (written : field ≠ .malformed) (inverse : ∀ a, field = .value a → get (put a) = some a) :
    readField get (field.toJson put) = field := by
  cases field with
  | absent => rfl
  | malformed => exact absurd rfl written
  | value a =>
      show (match get (put a) with
        | some a => Field.value a
        | none => .malformed) = _
      rw [inverse a rfl]

/-- No member is malformed, and every index is a `uint64_t`. -/
structure SessionFile.Written (file : SessionFile) : Prop where
  deviceId : file.deviceId ≠ .malformed
  accessToken : file.accessToken ≠ .malformed
  devices : file.devices ≠ .malformed
  deviceKeys : file.deviceKeys ≠ .malformed
  encryptedRooms : file.encryptedRooms ≠ .malformed
  members : file.members ≠ .malformed
  olmInboundSessions : file.olmInboundSessions ≠ .malformed
  olmOutboundSessions : file.olmOutboundSessions ≠ .malformed
  inboundGroupSessions : file.inboundGroupSessions ≠ .malformed
  outboundGroupSessions : file.outboundGroupSessions ≠ .malformed
  outboundGroupSessionData : file.outboundGroupSessionData ≠ .malformed
  indexed : ∀ m, file.outboundGroupSessionData = .value m →
    ∀ e ∈ m.entries, e.2.messageIndex < 2 ^ 64

theorem getMap_str (m : StdMap Bytes) :
    getMap Value.asString (ofMap .str m : Value Num) = some m :=
  getMap_ofMap fun _ _ => rfl

theorem getMap_bool (m : StdMap Bool) : getMap getBool (ofMap .bool m : Value Num) = some m :=
  getMap_ofMap fun _ _ => rfl

/-- **What was written of a session is read back.** -/
theorem readObject_objectOf (truncate : Num → Nat) {file : SessionFile} (written : file.Written) :
    readObject truncate (objectOf file) = file := by
  have once : ((file.assigned : List (Bytes × Option (Value Num))).map Prod.fst).Nodup := by
    show [bytes "access_token", bytes "device_id", bytes "device_keys", bytes "devices",
      bytes "encrypted_rooms", bytes "inbound_group_sessions", bytes "members",
      bytes "olm_inbound_sessions", bytes "olm_outbound_sessions",
      bytes "outbound_group_session_data", bytes "outbound_group_sessions"].Nodup
    decide +kernel
  have found : ∀ {name : Bytes} {v : Option (Value Num)} (i : Nat),
      file.assigned[i]? = some (name, v) → (objectOf file).member name = v :=
    fun i listed => lookup_members once (List.mem_of_getElem? (i := i) listed)
  have deviceKeys : ∀ m, file.deviceKeys = .value m →
      getMap DevKeys.fromJson (ofMap DevKeys.toJson m : Value Num) = some m :=
    fun _ _ => getMap_ofMap fun _ _ => rfl
  have devices : ∀ m, file.devices = .value m → getMap (getVector Value.asString)
      (ofMap (fun list => .arr (list.map .str)) m : Value Num) = some m :=
    fun _ _ => getMap_ofMap fun e _ => getVector_arr Value.str (fun _ => rfl) e.2
  have members : ∀ m, file.members = .value m →
      getMap (getMap getBool) (ofMap (ofMap .bool) m : Value Num) = some m :=
    fun _ _ => getMap_ofMap fun e _ => getMap_bool e.2
  have data : ∀ m, file.outboundGroupSessionData = .value m →
      getMap (OutboundSessionData.fromJson truncate)
        (ofMap OutboundSessionData.toJson m : Value Num) = some m :=
    fun m here => getMap_ofMap fun e member =>
      OutboundSessionData.fromJson_toJson truncate (written.indexed m here e member)
  unfold readObject
  rw [found 0 rfl, found 1 rfl, found 2 rfl, found 3 rfl, found 4 rfl, found 5 rfl, found 6 rfl,
    found 7 rfl, found 8 rfl, found 9 rfl, found 10 rfl,
    readField_toJson written.deviceId fun _ _ => rfl,
    readField_toJson written.accessToken fun _ _ => rfl,
    readField_toJson written.devices devices, readField_toJson written.deviceKeys deviceKeys,
    readField_toJson written.encryptedRooms fun m _ => getMap_bool m,
    readField_toJson written.members members,
    readField_toJson written.olmInboundSessions fun m _ => getMap_str m,
    readField_toJson written.olmOutboundSessions fun m _ => getMap_str m,
    readField_toJson written.inboundGroupSessions fun m _ => getMap_str m,
    readField_toJson written.outboundGroupSessions fun m _ => getMap_str m,
    readField_toJson written.outboundGroupSessionData data]

end Object

/-! ## Saving and loading -/

/-- The JSON library under the session files. -/
structure JsonLibrary (O : Mtx) where
  Num : Type
  truncate : Num → Nat
  parse : Bytes → Option (Value Num)
  dump : Value Num → Bytes
  parseSession : ∀ text, O.parseSession text = (parse text).map (readObject truncate)
  dumpSession : ∀ file, O.dumpSession file = dump (objectOf file)
  parse_nil : parse [] = none
  reread : ∀ file : SessionFile, parse (dump (objectOf file)) = some (objectOf file)

/-- What is pickled with the key is unpickled with it. -/
structure Pickles (O : Mtx) (key : Bytes) : Prop where
  session : ∀ session, O.unpickleSession (O.pickleSession session key) key = some session
  inbound : ∀ session, O.unpickleInbound (O.pickleInbound session key) key = some session
  outbound : ∀ session, O.unpickleOutbound (O.pickleOutbound session key) key = some session

variable {O : Mtx}

theorem loadSessions_saved {α : Type} {pickle : α → Bytes} {unpickle : Bytes → Option α}
    {m : StdMap α} (inverse : ∀ e ∈ m.entries, unpickle (pickle e.2) = some e.2) :
    Storage.loadSessions unpickle .empty (Storage.saved pickle m) = .ok m := by
  unfold Storage.saved
  split
  · rename_i none_
    obtain ⟨entries, sorted⟩ := m
    cases none_
    rfl
  · refine OrdMap.foldlM_set fun acc e member => ?_
    rw [Storage.loadSession, inverse e member]
    rfl

theorem loadData_saved (m : StdMap OutboundSessionData) :
    Storage.loadData .empty (Storage.saved id m) = .ok m := by
  unfold Storage.saved
  split
  · rename_i none_
    obtain ⟨entries, sorted⟩ := m
    cases none_
    rfl
  · have same : m.mapVal id = m := OrdMap.ext_get? fun k => by
      rw [OrdMap.get?_mapVal, Option.map_id]
      rfl
    exact congrArg Except.ok ((OrdMap.empty_merge _).trans same)

theorem saved_ne_malformed {α β : Type} (pickle : α → β) (m : StdMap α) :
    Storage.saved pickle m ≠ .malformed := by
  unfold Storage.saved
  split
  · nofun
  · nofun

theorem saved_entries {m m' : StdMap OutboundSessionData} (here : Storage.saved id m = .value m')
    {e : Bytes × OutboundSessionData} (member : e ∈ m'.entries) : e ∈ m.entries := by
  unfold Storage.saved at here
  split at here
  · cases here
  · cases here
    obtain ⟨e', inside, rfl⟩ := List.mem_map.mp member
    exact inside

/-- Saving fails on a null session, and on nothing else. -/
theorem save_eq_ok {st : Storage O} {key : Bytes} :
    (∃ obj, st.save key = .ok obj) ↔ ∀ e ∈ st.outboundGroupSessions.entries, e.2 ≠ none := by
  have any : (st.outboundGroupSessions.entries.any fun e => e.2.isNone) = true ↔
      ¬ ∀ e ∈ st.outboundGroupSessions.entries, e.2 ≠ none := by
    simp [List.any_eq_true]
  by_cases null : (st.outboundGroupSessions.entries.any fun e => e.2.isNone) = true
  · rw [Storage.save, if_pos null]
    refine iff_of_false ?_ (any.mp null)
    rintro ⟨obj, saved⟩
    cases saved
  · rw [Storage.save, if_neg null]
    exact iff_of_true ⟨_, rfl⟩ (not_not.mp (any.not.mp null))

/-- A text that is parsed as an object is loaded as that. -/
theorem load_of_parse (s : Storage O) (key : Bytes) {data : Bytes} {obj : SessionFile}
    (some_ : data ≠ []) (parsed : O.parseSession data = some obj) :
    s.load key (some data) = s.loadObject key obj := by
  obtain ⟨b, text, rfl⟩ := List.exists_cons_of_ne_nil some_
  simp only [Storage.load, parsed]

/-- What `save` writes is read back from its text. -/
theorem load_written (J : JsonLibrary O) (s : Storage O) (key : Bytes) {file : SessionFile}
    (written : file.Written) :
    s.load key (some (O.dumpSession file)) = s.loadObject key file := by
  refine load_of_parse s key ?_ ?_
  · rw [J.dumpSession]
    intro empty
    have reread := J.reread file
    rw [empty, J.parse_nil] at reread
    cases reread
  · rw [J.parseSession, J.dumpSession, J.reread]
    exact congrArg some (readObject_objectOf J.truncate written)

/-- **A fresh storage gets everything that was saved** but the device id and the access token. -/
theorem load_saved (J : JsonLibrary O) {st : Storage O} {key : Bytes} {obj : SessionFile}
    (pickles : Pickles O key) (saved : st.save key = .ok obj)
    (indexed : ∀ e ∈ st.outboundGroupSessionData.entries, e.2.messageIndex < 2 ^ 64) :
    (Storage.init : Storage O).load key (some (O.dumpSession obj)) =
      .ok { st with deviceId := [], accessToken := [] } := by
  have whole := save_eq_ok.mp ⟨obj, saved⟩
  have outbound : ∀ e ∈ st.outboundGroupSessions.entries,
      (O.unpickleOutbound ((e.2.map (O.pickleOutbound · key)).getD []) key).map some = some e.2 := by
    intro e member
    obtain ⟨session, there⟩ := Option.ne_none_iff_exists'.mp (whole e member)
    rw [there]
    exact congrArg (Option.map some) (pickles.outbound session)
  have kept : ¬ (st.outboundGroupSessions.entries.any fun e => e.2.isNone) = true := by
    intro null
    obtain ⟨e, member, absent⟩ := List.any_eq_true.mp null
    exact whole e member (Option.isNone_iff_eq_none.mp absent)
  rw [Storage.save, if_neg kept] at saved
  cases saved
  rw [load_written J]
  · have olm (m : StdMap O.Session) : Storage.loadSessions (O.unpickleSession · key) .empty
        (Storage.saved (O.pickleSession · key) m) = .ok m :=
      loadSessions_saved fun e _ => pickles.session e.2
    have inbound : Storage.loadSessions (O.unpickleInbound · key) .empty
        (Storage.saved (O.pickleInbound · key) st.inboundGroupSessions) =
          .ok st.inboundGroupSessions :=
      loadSessions_saved fun e _ => pickles.inbound e.2
    have outbound : Storage.loadSessions (fun p => (O.unpickleOutbound p key).map some) .empty
        (Storage.saved (fun session => (session.map (O.pickleOutbound · key)).getD [])
          st.outboundGroupSessions) = .ok st.outboundGroupSessions :=
      loadSessions_saved outbound
    have data := loadData_saved st.outboundGroupSessionData
    unfold Storage.loadObject
    simp only [show (Storage.init : Storage O).olmInboundSessions = .empty from rfl,
      show (Storage.init : Storage O).olmOutboundSessions = .empty from rfl,
      show (Storage.init : Storage O).inboundGroupSessions = .empty from rfl,
      show (Storage.init : Storage O).outboundGroupSessions = .empty from rfl,
      show (Storage.init : Storage O).outboundGroupSessionData = .empty from rfl,
      olm, inbound, outbound, data]
    rfl
  · exact
      { deviceId := nofun, accessToken := nofun, devices := nofun, deviceKeys := nofun,
        encryptedRooms := nofun, members := nofun,
        olmInboundSessions := saved_ne_malformed _ _,
        olmOutboundSessions := saved_ne_malformed _ _,
        inboundGroupSessions := saved_ne_malformed _ _,
        outboundGroupSessions := saved_ne_malformed _ _,
        outboundGroupSessionData := saved_ne_malformed _ _,
        indexed := fun m here e member => indexed e (saved_entries here member) }

theorem identified_nil {st : Storage O} (deviceId : st.deviceId = [])
    (accessToken : st.accessToken = []) :
    ({ st with deviceId := [], accessToken := [] } : Storage O) = st := by
  cases st
  cases deviceId
  cases accessToken
  rfl

/-- The library for examples, with the session files in JSON. -/
def withJson : Mtx :=
  { plain with
    parseSession := fun text => (JsonTree.read text).map (readObject Int.toNat)
    dumpSession := fun file => JsonTree.print (objectOf file) }

def jsonLibrary : JsonLibrary withJson where
  Num := Int
  truncate := Int.toNat
  parse := JsonTree.read
  dump := JsonTree.print
  parseSession _ := rfl
  dumpSession _ := rfl
  parse_nil := by decide +kernel
  reread file := JsonTree.read_print (objectOf file)

theorem pickles_withJson (key : Bytes) : Pickles withJson key where
  session _ := rfl
  inbound _ := rfl
  outbound _ := congrArg some List.length_replicate

/-- A storage with a room, a device, and a group session that has sent three messages. -/
def stored : Storage withJson :=
  { (Storage.init : Storage withJson) with
    devices := OrdMap.empty.set (bytes "@bob:m.org") [bytes "PHONE"]
    deviceKeys := OrdMap.empty.set (bytes "PHONE") ⟨bytes "ed", bytes "curve"⟩
    encryptedRooms := OrdMap.empty.set (bytes "!room") true
    members := OrdMap.empty.set (bytes "!room") (OrdMap.empty.set (bytes "@bob:m.org") true)
    inboundGroupSessions := OrdMap.empty.set (bytes "!roomidkey") (bytes "megolm")
    outboundGroupSessionData := OrdMap.empty.set (bytes "!room") ⟨bytes "id", bytes "key", 3⟩
    outboundGroupSessions := OrdMap.empty.set (bytes "!room") (some (3 : Nat)) }

/-- The process with a storage and the session file of an earlier login. -/
def closing (storage : Storage withJson) : World withJson :=
  { World.init withJson (fun _ => some (bytes "old")) with
    storage, sessionDb := bytes "alice.session.json", storageKey := bytes "secret" }

end Piac.Matrix
