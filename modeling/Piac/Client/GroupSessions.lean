/-
# Client.GroupSessions — inbound group sessions by room, session and sender

The three functions of `Storage` for inbound group sessions look them up under one string,
the room id, the session id and the sender key one after the other. `GroupSessionId` is the
triple, and `afterSets` the map after any calls of `set_inbound_group_session`.

* `keepRoomKey_sessions`, `exists_sessions`, `set_sessions`, `get_sessions`: what the client
  does with its sessions is done by these functions;
* `inbound_sessions_faithful`: they answer for a triple according to its last set exactly if no
  later set is for another triple with the same string.
-/
import Piac.Theory.Latest
import Piac.Client.Parsing

namespace Piac.Matrix

set_option autoImplicit false

open Piac.Theory.CppString Piac.Theory Piac.Theory.Latest

variable {O : Mtx} {Session : Type}

/-! ## The functions -/

structure GroupSessionId where
  roomId : Bytes
  sessionId : Bytes
  senderKey : Bytes
  deriving DecidableEq

def GroupSessionId.key (id : GroupSessionId) : Bytes :=
  Storage.inboundKey id.roomId id.sessionId id.senderKey

/-- `inbound_group_sessions`; `none` is the null pointer that `operator[]` adds. -/
abbrev GroupSessions (Session : Type) := StdMap (Option Session)

namespace GroupSessions

def inboundGroupExists (m : GroupSessions Session) (id : GroupSessionId) : Bool :=
  m.contains id.key

def setInboundGroupSession (m : GroupSessions Session) (id : GroupSessionId)
    (session : Session) : GroupSessions Session :=
  m.set id.key (some session)

/-- The session, and the map after `operator[]`. -/
def getInboundGroupSession (m : GroupSessions Session) (id : GroupSessionId) :
    Option Session × GroupSessions Session :=
  let m := m.touch id.key none
  ((m.get? id.key).getD none, m)

end GroupSessions

open GroupSessions

/-! ## In the client -/

def Storage.groupSessions (s : Storage O) : GroupSessions O.Inbound :=
  s.inboundGroupSessions.mapVal some

section Client

variable (s : Storage O) (id : GroupSessionId)

theorem exists_sessions :
    inboundGroupExists s.groupSessions id = s.inboundGroupSessions.contains id.key := by
  unfold inboundGroupExists Storage.groupSessions OrdMap.contains
  rw [OrdMap.get?_mapVal, Option.isSome_map]

theorem get_eq (m : GroupSessions Session) :
    (getInboundGroupSession m id).1 = (m.get? id.key).getD none := by
  unfold getInboundGroupSession
  dsimp only
  rw [OrdMap.get?_touch, if_pos rfl]
  rfl

theorem get_sessions :
    (getInboundGroupSession s.groupSessions id).1 = s.inboundGroupSessions.get? id.key := by
  rw [get_eq, Storage.groupSessions, OrdMap.get?_mapVal]
  cases s.inboundGroupSessions.get? id.key <;> rfl

theorem set_sessions (session : O.Inbound) :
    setInboundGroupSession s.groupSessions id session = Storage.groupSessions
      { s with inboundGroupSessions := s.inboundGroupSessions.set id.key session } := by
  refine OrdMap.ext_get? fun k => ?_
  unfold setInboundGroupSession Storage.groupSessions
  rw [OrdMap.get?_set, OrdMap.get?_mapVal, OrdMap.get?_mapVal, OrdMap.get?_set]
  split
  · rfl
  · rfl

/-- A room key sets its session, unless there is one. -/
theorem keepRoomKey_sessions (w : World O) {plaintext sessionKey : Bytes} {megolm : O.Inbound}
    (is : O.roomKeyOf plaintext = some (id.roomId, id.sessionId, sessionKey))
    (made : O.initInboundGroupSession sessionKey = some megolm) :
    (left ((keepRoomKey id.senderKey plaintext).run w)).storage.groupSessions =
      if inboundGroupExists w.storage.groupSessions id then w.storage.groupSessions
      else setInboundGroupSession w.storage.groupSessions id megolm := by
  rw [exists_sessions, set_sessions]
  unfold keepRoomKey
  rw [is]
  dsimp only
  rw [run_get_bind, made]
  change (left ((if (!w.storage.inboundGroupSessions.contains id.key) = true then _
    else _ : Op O Unit).run w)).storage.groupSessions = _
  cases w.storage.inboundGroupSessions.contains id.key with
  | true => rfl
  | false => rfl

end Client

/-! ## Any sets -/

/-- The sessions after calls of `set_inbound_group_session`. -/
def afterSets (sets : List (GroupSessionId × Session)) : GroupSessions Session :=
  sets.foldl (fun m e => setInboundGroupSession m e.1 e.2) .empty

/-- What the map says of a triple is what was last set for it. -/
structure Faithful (sets : List (GroupSessionId × Session)) (id : GroupSessionId) : Prop where
  exists_ : inboundGroupExists (afterSets sets) id = (latest id sets).isSome
  get : (getInboundGroupSession (afterSets sets) id).1 = latest id sets

theorem get?_afterSets (sets : List (GroupSessionId × Session)) (id : GroupSessionId) :
    (afterSets sets).get? id.key = (latest id.key (encoded GroupSessionId.key sets)).map some := by
  have folded : afterSets sets = ((encoded GroupSessionId.key sets).map fun e =>
      (e.1, some e.2)).foldl (fun m e => m.set e.1 e.2) .empty := by
    rw [encoded, List.map_map, List.foldl_map]
    rfl
  rw [folded, get?_foldl_set, OrdMap.get?_empty, Option.or_none, latest_map]

/-- **Inbound group sessions are a faithful map exactly if** no triple shadows the other: after
any calls of `set_inbound_group_session`, each of which moves in a session of its own, both
questions about a triple are answered by its last set if and only if each set for another
triple with the same string is followed by one for the triple. -/
theorem inbound_sessions_faithful (sets : List (GroupSessionId × Session))
    (apart : (sets.map Prod.snd).Nodup) (id : GroupSessionId) :
    Faithful sets id ↔ Unshadowed GroupSessionId.key id sets := by
  have got : (getInboundGroupSession (afterSets sets) id).1 =
      latest id.key (encoded GroupSessionId.key sets) := by
    rw [get_eq, get?_afterSets]
    cases latest id.key (encoded GroupSessionId.key sets) <;> rfl
  have known : inboundGroupExists (afterSets sets) id =
      (latest id.key (encoded GroupSessionId.key sets)).isSome := by
    rw [inboundGroupExists, OrdMap.contains, get?_afterSets, Option.isSome_map]
  rw [← latest_code_iff GroupSessionId.key apart]
  constructor
  · intro faithful
    exact got.symm.trans faithful.get
  · intro same
    exact ⟨known.trans (congrArg Option.isSome same), got.trans same⟩

/-! ## Two triples with one string -/

/-- A session in a room `!ab`, and what is asked for in a room `!a`. -/
def sessionInAb : GroupSessionId := ⟨bytes "!ab", bytes "c", bytes "key"⟩

def sessionInA : GroupSessionId := ⟨bytes "!a", bytes "bc", bytes "key"⟩

theorem inbound_sessions_faithful_ab : Faithful [(sessionInAb, 0)] sessionInAb :=
  (inbound_sessions_faithful [(sessionInAb, 0)] (List.nodup_singleton 0) sessionInAb).mpr
    ⟨fun _ => .inl rfl, trivial⟩

/-- The session that has been set in the one room is there in the other. -/
theorem session_in_another_room :
    inboundGroupExists (afterSets [(sessionInAb, 0)]) sessionInA = true ∧
    (getInboundGroupSession (afterSets [(sessionInAb, 0)]) sessionInA).1 = some 0 ∧
    ¬ ∀ (sets : List (GroupSessionId × Nat)) (id : GroupSessionId), Faithful sets id := by
  refine ⟨by decide +kernel, by decide +kernel, fun all => ?_⟩
  have exists_ := (all [(sessionInAb, 0)] sessionInA).exists_
  revert exists_
  decide +kernel

end Piac.Matrix
