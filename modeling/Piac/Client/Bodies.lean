/-
# Client.Bodies — the body of a to-device request

A room key is shared by one of two requests, whose bodies are both written as
`{{"messages", {{member, {{dev, device_msg}}}}}}`. What that is depends on `member`: nlohmann
makes an object of a list of pairs with a string in front, and an array of any other list
(`braced`). In the callback of a claim `member` is a user id, and in the loop over the
members of the room it is an entry of their map.

* `claimedBody_eq`, `entryBody_ne`: the first has the shape that the server expects, and
  the second has not;
* `key_sharing_bodies`: so all requests of `create_outbound_megolm_session` have it exactly
  if it finds no session with any device.
-/
import Piac.Theory.Json
import Piac.Client.KeyOwners

namespace Piac.Matrix

set_option autoImplicit false

open Piac.Theory.CppString Piac.Theory Piac.Theory.Json

variable {O : Mtx} {Num : Type}

/-! ## Braces -/

/-- A two-element array with a string in front. -/
def asMember : Value Num → Option (Bytes × Value Num)
  | .arr [.str name, v] => some (name, v)
  | _ => none

/-- A value that is initialised with a list in braces; of two members with one name the first
is kept. -/
def braced (items : List (Value Num)) : Value Num :=
  match items.mapM asMember with
  | some members => .obj (members.foldl (fun m e => m.touch e.1 e.2) OrdMap.empty).entries
  | none => .arr items

/-- `nlohmann::json body{{"messages", {{member, {{dev, device_msg}}}}}}`. -/
def messagesBody (member : Value Num) (dev : Bytes) (deviceMsg : Value Num) : Value Num :=
  braced [braced [.str (bytes "messages"),
    braced [braced [member, braced [braced [.str dev, deviceMsg]]]]]]

/-- The body in the loop over the members; a pair becomes an array. -/
def entryBody (member : Bytes × Bool) (dev : Bytes) (deviceMsg : Value Num) : Value Num :=
  messagesBody (.arr [.str member.1, .bool member.2]) dev deviceMsg

/-- The body in the callback of a claim. -/
def claimedBody (member dev : Bytes) (deviceMsg : Value Num) : Value Num :=
  messagesBody (.str member) dev deviceMsg

/-- `{"messages": {<user id>: {<device id>: <olm ciphertext>}}}`. -/
def expectedBody (user dev : Bytes) (ciphertext : Value Num) : Value Num :=
  .obj [(bytes "messages", .obj [(user, .obj [(dev, ciphertext)])])]

theorem claimedBody_eq (member dev : Bytes) (deviceMsg : Value Num) :
    claimedBody member dev deviceMsg = expectedBody member dev deviceMsg := rfl

theorem entryBody_eq (member : Bytes × Bool) (dev : Bytes) (deviceMsg : Value Num) :
    entryBody member dev deviceMsg = .obj [(bytes "messages",
      .arr [.arr [.arr [.str member.1, .bool member.2], .obj [(dev, deviceMsg)]]])] := rfl

theorem entryBody_ne (member : Bytes × Bool) (dev user : Bytes) (deviceMsg : Value Num) :
    entryBody member dev deviceMsg ≠ expectedBody user dev deviceMsg := by
  rw [entryBody_eq, expectedBody]
  intro same
  injection same with same
  injection same with same
  injection same with _ same
  cases same

/-! ## Requests -/

/-- The body of a request to a device; `json` is the value of an olm ciphertext, and `members`
the copy of the member map that the loop goes over. -/
def Act.body (json : Bytes → Value Num) (members : StdMap Bool) : Act → Option (Value Num)
  | .toDevice true user dev _ content =>
      some (entryBody (user, (members.get? user).getD false) dev (json content))
  | .toDevice false user dev _ content => some (claimedBody user dev (json content))
  | _ => none

/-- A request to a device has the body that is expected. -/
def Act.Shaped (json : Bytes → Value Num) (members : StdMap Bool) (act : Act) : Prop :=
  ∀ entry user dev payload content, act = .toDevice entry user dev payload content →
    act.body json members = some (expectedBody user dev (json content))

namespace World

/-- The map of the members that the storage has for the room. -/
def membersOf (w : World O) (roomId : Bytes) : StdMap Bool :=
  (w.storage.members.get? roomId).getD .empty

/-- There is an outbound session with the device. -/
def HasOlmSession (w : World O) (dev : Bytes) : Prop :=
  w.storage.olmOutboundSessions.contains (w.usedKeys dev).curve25519 = true

end World

section Shapes

variable {json : Bytes → Value Num} {members : StdMap Bool}

theorem shaped_toDevice {entry : Bool} {user dev content : Bytes} {payload : RoomKey} :
    (Act.toDevice entry user dev payload content).Shaped json members ↔ entry = false := by
  constructor
  · intro shaped
    have its := shaped entry user dev payload content rfl
    cases entry with
    | false => rfl
    | true => exact absurd (Option.some.inj its) (entryBody_ne _ _ _ _)
  · rintro rfl _ _ _ _ _ same
    cases same
    exact congrArg some (claimedBody_eq _ _ _)

/-- What the loops leave as it was: the clients, the devices with their keys, and which
sessions there are. -/
structure Same (w₀ w : World O) : Prop where
  ready : w.Ready
  devices : ∀ user, (w.storage.devices.get? user).getD [] = (w₀.storage.devices.get? user).getD []
  usedKeys : ∀ dev, w.usedKeys dev = w₀.usedKeys dev
  sessions : ∀ key, w.storage.olmOutboundSessions.contains key =
    w₀.storage.olmOutboundSessions.contains key

theorem Same.refl {w : World O} (ready : w.Ready) : Same w w :=
  ⟨ready, fun _ => rfl, fun _ => rfl, fun _ => rfl⟩

variable (json members) in
/-- The program ends, and its requests have the expected bodies exactly if `P` holds. -/
def Shares (w₀ : World O) (p : Op O Unit) (P : Prop) : Prop :=
  ∀ w, Same w₀ w → ∃ acts t, p.run w = .ok () t ∧ Same w₀ t ∧ t.sent = w.sent ++ acts ∧
    ((∀ act ∈ acts, act.Shaped json members) ↔ P)

namespace Shares

variable {w₀ : World O}

theorem bind {p q : Op O Unit} {P Q : Prop} (first : Shares json members w₀ p P)
    (rest : Shares json members w₀ q Q) :
    Shares json members w₀ (p >>= fun _ => q) (P ∧ Q) := by
  intro w same
  obtain ⟨acts, t, ran, same, sent, shaped⟩ := first w same
  obtain ⟨acts', t', ran', same', sent', shaped'⟩ := rest t same
  refine ⟨acts ++ acts', t', ?_, same', ?_, ?_⟩
  · rw [run_bind_ok ran, ran']
  · rw [sent', sent, List.append_assoc]
  · rw [List.forall_mem_append, shaped, shaped']

theorem forM {γ : Type} {f : γ → Op O Unit} {P : γ → Prop}
    (each : ∀ x, Shares json members w₀ (f x) (P x)) (xs : List γ) :
    Shares json members w₀ (xs.forM f) (∀ x ∈ xs, P x) := by
  induction xs with
  | nil =>
      intro w same
      exact ⟨[], w, rfl, same, (List.append_nil _).symm, iff_of_true nofun nofun⟩
  | cons x xs ih =>
      intro w same
      obtain ⟨acts, t, ran, same', sent, shaped⟩ := (each x).bind ih w same
      exact ⟨acts, t, ran, same', sent, shaped.trans List.forall_mem_cons.symm⟩

end Shares

/-- The storage after the keys of a device have been looked up. -/
def World.lookedUp (w : World O) (dev : Bytes) : World O :=
  { w with storage := { w.storage with deviceKeys := w.storage.deviceKeys.touch dev ⟨[], []⟩ } }

theorem Same.lookedUp {w₀ w : World O} (same : Same w₀ w) (dev : Bytes) :
    Same w₀ (w.lookedUp dev) :=
  { same with
    ready := same.ready
    usedKeys := fun dev' => (getD_touch _ _ _).trans (same.usedKeys dev') }

theorem Same.ask {w₀ w : World O} (same : Same w₀ w) (act : Act) : Same w₀ (w.ask act) :=
  { same with ready := World.ready_ask act same.ready }

/-- The storage after the session with a device has encrypted a message. -/
def World.ratcheted (w : World O) (key : Bytes) (session : O.Session) : World O :=
  { w with storage :=
      { w.storage with olmOutboundSessions := w.storage.olmOutboundSessions.set key session } }

theorem Same.ratcheted {w₀ w : World O} (same : Same w₀ w) {key : Bytes}
    (known : w.storage.olmOutboundSessions.contains key = true) (session : O.Session) :
    Same w₀ (w.ratcheted key session) :=
  { same with
    ready := same.ready
    sessions := fun key' => (OrdMap.contains_set_self known session key').trans (same.sessions key') }

variable (json members) in
/-- **For one device**, the request has the expected body if it is the claim of a key, that
is, if there is no session with the device. -/
theorem shareRoomKey_shares (w₀ : World O) (payload : RoomKey) (member dev : Bytes) :
    Shares json members w₀ (shareRoomKey payload member dev) (¬ w₀.HasOlmSession dev) := by
  intro w same
  have looked := same.lookedUp dev
  have keys : ((w.storage.deviceKeys.touch dev ⟨[], []⟩).get? dev).getD ⟨[], []⟩ =
      w₀.usedKeys dev := looked.usedKeys dev
  obtain ⟨client, here⟩ := Option.isSome_iff_exists.mp same.ready.1
  obtain ⟨olm, olmHere⟩ := Option.isSome_iff_exists.mp looked.ready.2
  have known := same.sessions (w₀.usedKeys dev).curve25519
  unfold shareRoomKey
  rw [run_bind_ok (changeStorage_run _ w), run_get_bind]
  dsimp only
  rw [keys]
  cases session : w.storage.olmOutboundSessions.get? (w₀.usedKeys dev).curve25519 with
  | none =>
      rw [OrdMap.contains, session] at known
      refine ⟨[.claimKeys member dev], _, changeClient_run _ here, ?_, ?_, ?_⟩
      · exact { looked with ready := ⟨rfl, same.ready.2⟩ }
      · rw [World.sent, World.sent, here]
        rfl
      · refine iff_of_true (fun act among => ?_) fun has => ?_
        · cases List.mem_singleton.mp among
          intro entry user dev payload content same
          cases same
        · rw [World.HasOlmSession, ← known] at has
          cases has
  | some session =>
      rw [OrdMap.contains, session] at known
      have has : w.storage.olmOutboundSessions.contains (w₀.usedKeys dev).curve25519 = true := by
        rw [OrdMap.contains, session]
        rfl
      have ratcheted (session : O.Session) := looked.ratcheted has session
      refine ⟨_, _, (run_bind_ok (olmclient_run olmHere)).trans
        ((run_bind_ok (changeStorage_run _ _)).trans (request_run _ same.ready.1)),
        (ratcheted _).ask _, World.sent_ask _ same.ready.1, ?_⟩
      refine iff_of_false (fun all => ?_) fun fresh => fresh known.symm
      exact absurd (shaped_toDevice.mp (all _ List.mem_cons_self)) (by decide)

/-- The devices that the storage lists for a user. -/
def World.userDevices (w : World O) (user : Bytes) : List Bytes :=
  (w.storage.devices.get? user).getD []

variable (json members) in
theorem shareRoomKeys_shares (w₀ : World O) (payload : RoomKey) (users : List (Bytes × Bool)) :
    Shares json members w₀ (shareRoomKeys payload users)
      (∀ user ∈ users, ∀ dev ∈ w₀.userDevices user.1, ¬ w₀.HasOlmSession dev) := by
  induction users with
  | nil => exact fun w same => ⟨[], w, rfl, same, (List.append_nil _).symm, iff_of_true nofun nofun⟩
  | cons user rest ih =>
      intro w same
      have listed (user' : Bytes) : ((w.storage.devices.touch user.1 []).get? user').getD [] =
          w₀.userDevices user' := by
        rw [OrdMap.get?_touch]
        split
        · exact same.devices user'
        · exact same.devices user'
      unfold shareRoomKeys
      rw [run_bind_ok (changeStorage_run _ w), run_get_bind]
      dsimp only
      rw [listed user.1]
      have each := Shares.forM (shareRoomKey_shares json members w₀ payload user.1)
        (w₀.userDevices user.1)
      obtain ⟨acts, t, ran, done, sent, shaped⟩ := (each.bind ih) { w with storage :=
        { w.storage with devices := w.storage.devices.touch user.1 [] } }
        { same with ready := same.ready, devices := listed }
      exact ⟨acts, t, ran, done, sent, by rw [List.forall_mem_cons]; exact shaped⟩

variable (json members) in
/-- The rest of `create_outbound_megolm_session` sends nothing to a device. -/
theorem announces_shares (w₀ : World O) {roomId msg : Bytes} (fresh : O.Outbound)
    (plain : dumps [roomId, msg] = true) :
    Shares json members w₀ (do
      let session ← sendGroupMessage (some fresh) (O.sessionId fresh) roomId msg
      changeStorage fun s => s.setOutboundGroupSession roomId session
        ⟨O.sessionId fresh, O.sessionKey fresh, 0⟩) True := by
  intro w same
  obtain ⟨client, here⟩ := Option.isSome_iff_exists.mp same.ready.1
  obtain ⟨olm, olmHere⟩ := Option.isSome_iff_exists.mp same.ready.2
  have asked (data : Encrypted) := same.ask (.roomMessage roomId data)
  refine ⟨_, _, (run_bind_ok (sendGroupMessage_run here olmHere fresh (O.sessionId fresh)
    plain)).trans (changeStorage_run _ _), ?_, World.sent_ask _ same.ready.1, ?_⟩
  · exact { asked _ with ready := (asked _).ready }
  · refine iff_of_true (fun act among => ?_) trivial
    cases List.mem_singleton.mp among
    exact nofun

variable (json members) in
theorem createOutboundMegolmSession_shares {w : World O} (ready : w.Ready) (roomId msg : Bytes)
    (fresh : O.Outbound) : ∃ acts,
      (left ((createOutboundMegolmSession roomId msg fresh).run w)).sent = w.sent ++ acts ∧
        ((∀ act ∈ acts, act.Shaped json members) ↔
          ∀ user ∈ (w.membersOf roomId).entries, ∀ dev ∈ w.userDevices user.1,
            ¬ w.HasOlmSession dev) := by
  obtain ⟨olm, olmHere⟩ := Option.isSome_iff_exists.mp ready.2
  unfold createOutboundMegolmSession
  rw [run_bind_ok (olmclient_run olmHere), run_get_bind]
  unfold World.membersOf
  cases w.storage.members.get? roomId with
  | none => exact ⟨[], (List.append_nil _).symm, iff_of_true nofun nofun⟩
  | some users =>
      have shares := shareRoomKeys_shares json members w (roomKeyFor O roomId fresh) users.entries
      by_cases plain : dumps [roomId, msg] = true
      · obtain ⟨acts, t, ran, -, sent, shaped⟩ :=
          (shares.bind (announces_shares json members w fresh plain)) w (.refl ready)
        refine ⟨acts, ?_, shaped.trans (and_iff_left trivial)⟩
        dsimp only
        rw [ran]
        exact sent
      · -- the keys have been shared when the text throws
        obtain ⟨acts, t, ran, same, sent, shaped⟩ := shares w (.refl ready)
        obtain ⟨olm, olmHere⟩ := Option.isSome_iff_exists.mp same.ready.2
        refine ⟨acts, ?_, shaped⟩
        dsimp only
        rw [run_bind_ok ran, run_bind_error (sendGroupMessage_odd _ _ olmHere plain)]
        exact sent

end Shapes

theorem isMember_iff {w : World O} {roomId user : Bytes} :
    w.IsMember roomId user ↔ ∃ here, (user, here) ∈ (w.membersOf roomId).entries := by
  unfold World.IsMember World.membersOf
  cases w.storage.members.get? roomId with
  | none => exact iff_of_false nofun nofun
  | some users =>
      simp only [Option.some.injEq, exists_eq_left', Option.getD_some, OrdMap.contains,
        Option.isSome_iff_exists, OrdMap.get?_eq_some]

/-- **Both key-sharing paths send the same body exactly if** there is no session yet with any
listed device of a member: then, and only then, have the to-device requests of
`create_outbound_megolm_session` the body that is expected; those of the callbacks of its
claims have it in any state. -/
theorem key_sharing_bodies (json : Bytes → Value Num) (w : World O) (ready : w.Ready)
    (roomId msg : Bytes) (fresh : O.Outbound) :
    ((∃ acts, (left ((createOutboundMegolmSession roomId msg fresh).run w)).sent =
          w.sent ++ acts ∧ ∀ act ∈ acts, act.Shaped json (w.membersOf roomId)) ↔
      ∀ user dev, w.IsMember roomId user → w.HasDevice user dev → ¬ w.HasOlmSession dev) ∧
    ∀ (v : World O) (member dev : Bytes) (payload : RoomKey) (res : Option ClaimKeys),
      ∃ acts, (left ((claimedKeys member dev payload res).run v)).sent = v.sent ++ acts ∧
        ∀ act ∈ acts, act.Shaped json (w.membersOf roomId) := by
  constructor
  · obtain ⟨acts, sent, shaped⟩ :=
      createOutboundMegolmSession_shares json (w.membersOf roomId) ready roomId msg fresh
    have devices : (∀ user ∈ (w.membersOf roomId).entries, ∀ dev ∈ w.userDevices user.1,
        ¬ w.HasOlmSession dev) ↔
        ∀ user dev, w.IsMember roomId user → w.HasDevice user dev → ¬ w.HasOlmSession dev := by
      constructor
      · intro all user dev member
        obtain ⟨here, among⟩ := isMember_iff.mp member
        exact all _ among dev
      · exact fun all user among dev => all user.1 dev (isMember_iff.mpr ⟨user.2, among⟩)
    rw [← devices, ← shaped, sent]
    simp only [List.append_cancel_left_eq, exists_eq_left']
  · intro v member dev payload res
    obtain ⟨acts, sent, within⟩ := (claimedKeys_does member dev payload res v).sent
    refine ⟨acts, sent, fun act among => ?_⟩
    obtain ⟨content, rfl⟩ := within act among
    exact shaped_toDevice.mpr rfl

/-! ## A second message -/

/-- A user with a device in our room, and the outbound sessions there are. -/
def bobsRoom (sessions : StdMap Bytes) : World plain :=
  { online plain (1 : Nat) with
    storage := { Storage.init with
      members := OrdMap.empty.set (bytes "!room") (OrdMap.empty.set (bytes "@bob:hs") true)
      devices := OrdMap.empty.set (bytes "@bob:hs") [bytes "PHONE"]
      deviceKeys := OrdMap.empty.set (bytes "PHONE") alicesKeys
      olmOutboundSessions := sessions } }

/-- The room after a key of bob's phone has been claimed. -/
def bobsNextRoom : World plain := bobsRoom (OrdMap.empty.set (bytes "alice curve") (bytes "otk"))

/-- The text of a ciphertext as its value. -/
def asText : Bytes → Value Int := .str

theorem key_sharing_bodies_first : ∃ acts,
    (left ((createOutboundMegolmSession (bytes "!room") (bytes "hi") (0 : Nat)).run
      (bobsRoom .empty))).sent = (bobsRoom .empty).sent ++ acts ∧
        ∀ act ∈ acts, act.Shaped asText ((bobsRoom .empty).membersOf (bytes "!room")) :=
  (key_sharing_bodies asText (bobsRoom .empty) ⟨rfl, rfl⟩ (bytes "!room") (bytes "hi")
    (0 : Nat)).1.mpr fun _ _ _ _ has => Bool.false_ne_true has

/-- With a session from before, the user id in the body has become a pair in an array. -/
theorem key_sharing_bodies_next :
    (∃ content rest, (left ((createOutboundMegolmSession (bytes "!room") (bytes "hi")
        (0 : Nat)).run bobsNextRoom)).sent =
          .toDevice true (bytes "@bob:hs") (bytes "PHONE")
            (roomKeyFor plain (bytes "!room") (0 : Nat)) content :: rest ∧
        (Act.toDevice true (bytes "@bob:hs") (bytes "PHONE")
            (roomKeyFor plain (bytes "!room") (0 : Nat)) content).body asText
              (bobsNextRoom.membersOf (bytes "!room")) =
          some (.obj [(bytes "messages", .arr [.arr [.arr [.str (bytes "@bob:hs"), .bool true],
            .obj [(bytes "PHONE", asText content)]]])])) ∧
    ¬ ∀ w : World plain, w.Ready → ∃ acts,
      (left ((createOutboundMegolmSession (bytes "!room") (bytes "hi") (0 : Nat)).run w)).sent =
        w.sent ++ acts ∧ ∀ act ∈ acts, act.Shaped asText (w.membersOf (bytes "!room")) := by
  have ran : ∃ content rest, (left ((createOutboundMegolmSession (bytes "!room") (bytes "hi")
      (0 : Nat)).run bobsNextRoom)).sent =
        .toDevice true (bytes "@bob:hs") (bytes "PHONE")
          (roomKeyFor plain (bytes "!room") (0 : Nat)) content :: rest := ⟨_, _, rfl⟩
  obtain ⟨content, rest, ran⟩ := ran
  refine ⟨⟨content, rest, ran, rfl⟩, fun all => ?_⟩
  obtain ⟨acts, sent, shaped⟩ := all bobsNextRoom ⟨rfl, rfl⟩
  have same : acts = _ :: rest := sent.symm.trans ran
  rw [same] at shaped
  exact absurd (shaped_toDevice.mp (shaped _ List.mem_cons_self)) (by decide)

end Piac.Matrix
