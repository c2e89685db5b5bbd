/-
# Client.Recipients — whom the key of a room reaches

When a room has been created its key is for every device that the storage lists for a
member. A device with which there is an olm session is sent the key at once. For another
one a one-time key is claimed, and the callback of the claim holds on to the room key.

* `shareRoomKeys_reach`: the loops leave out no device of no member;
* `key_reaches_all`: while each claim is answered with a key that olm can use, every one of
  these devices has been sent the room key, or its claim is under way; so all have it when
  nothing waits any more.
-/
import Piac.Client.Bodies
import Piac.Client.KeyOwners
import Piac.Client.Lasting

namespace Piac.Matrix

set_option autoImplicit false

open Piac.Theory.CppString Piac.Theory Piac.Theory.Transition

variable {O : Mtx} {w w' : World O} {payload : RoomKey} {user dev : Bytes}

/-! ## One device -/

/-- The device has been sent the room key, in a body of either form. -/
def World.Sent (w : World O) (payload : RoomKey) (user dev : Bytes) : Prop :=
  ∃ entry content, .toDevice entry user dev payload content ∈ w.sent

/-- It has been, or a one-time key is being claimed for it. -/
def World.Reaches (w : World O) (payload : RoomKey) (user dev : Bytes) : Prop :=
  w.Sent payload user dev ∨ .claimKeys user dev payload ∈ w.pending

theorem Does.keeps_sent {L : Limits} (does : Does L w w') (sent : w.Sent payload user dev) :
    w'.Sent payload user dev := by
  obtain ⟨entry, content, among⟩ := sent
  obtain ⟨acts, same, -⟩ := does.sent
  refine ⟨entry, content, ?_⟩
  rw [same]
  exact List.mem_append_left _ among

theorem Does.keeps_reaches {L : Limits} (does : Does L w w')
    (reaches : w.Reaches payload user dev) : w'.Reaches payload user dev := by
  rcases reaches with sent | waits
  · exact .inl (does.keeps_sent sent)
  · obtain ⟨callbacks, same, -⟩ := does.pending
    right
    rw [same]
    exact List.mem_append_left _ waits

theorem Does.moves_reaches {L : Limits} {α : Type} {p : Op O α} (moves : Moves (Does L) p)
    (payload : RoomKey) (user dev : Bytes) :
    Moves (Keeps fun w : World O => w.Reaches payload user dev) p :=
  moves.mono fun _ _ does => does.keeps_reaches

theorem sent_ask {entry : Bool} {content : Bytes} (ready : w.Ready) :
    (w.ask (.toDevice entry user dev payload content)).Sent payload user dev := by
  refine ⟨entry, content, ?_⟩
  rw [World.sent_ask _ ready.1]
  exact List.mem_append_right _ List.mem_cons_self

theorem request_reaches {entry : Bool} {content : Bytes} (ready : w.Ready) :
    (left ((request (.toDevice entry user dev payload content)).run w)).Sent payload user dev := by
  rw [request_run _ ready.1]
  exact sent_ask ready

theorem requestWith_reaches (act : Act) (ready : w.Ready) :
    (left ((requestWith act (.claimKeys user dev payload)).run w)).Reaches payload user dev := by
  obtain ⟨client, here⟩ := Option.isSome_iff_exists.mp ready.1
  right
  rw [requestWith, changeClient_run _ here]
  exact List.mem_append_right _ List.mem_cons_self

theorem shareRoomKey_reaches (ready : w.Ready) :
    (left ((shareRoomKey payload user dev).run w)).Reaches payload user dev := by
  obtain ⟨olm, olmHere⟩ := Option.isSome_iff_exists.mp ready.2
  unfold shareRoomKey
  rw [run_bind_ok (changeStorage_run _ w), run_get_bind]
  dsimp only
  split
  · left
    show (left ((olmclient >>= _ : Op O Unit).run (w.lookedUp dev))).Sent payload user dev
    rw [run_bind_ok (olmclient_run (w := w.lookedUp dev) olmHere)]
    rw [run_bind_ok (changeStorage_run _ _)]
    exact request_reaches ready
  · exact requestWith_reaches _ (w := w.lookedUp dev) ready

/-! ## All devices of all members -/

/-- The storage after the list of a user has been looked up. -/
def World.listed (w : World O) (user : Bytes) : World O :=
  { w with storage := { w.storage with devices := w.storage.devices.touch user [] } }

/-- One turn of the outer loop. -/
theorem shareRoomKey_forM (payload : RoomKey) (user : Bytes) (ready : w.Ready) :
    ∃ t, ((w.devicesOf user).forM (shareRoomKey payload user)).run (w.listed user) = .ok () t ∧
      t.Ready ∧ (∀ user', t.devicesOf user' = w.devicesOf user') ∧
      ∀ dev ∈ w.devicesOf user, t.Reaches payload user dev := by
  have touched : (w.listed user).Ready := ready
  have keeps (dev : Bytes) := Does.keeps (shareRoomKey_does (O := O) payload user dev)
  have ends := shareRoomKey_ends (O := O) payload user
  have each : ∀ dev ∈ w.devicesOf user, (left (((w.devicesOf user).forM
      (shareRoomKey payload user)).run (w.listed user))).Reaches payload user dev :=
    Ends.forM_each ends keeps (fun _ _ ready => shareRoomKey_reaches ready) (fun dev dev' =>
      Does.moves_reaches (shareRoomKey_does payload user dev) payload user dev') touched
  have stays : World.Ready (w.listed user) → World.Ready (left _) :=
    (Moves.forM fun dev (_ : dev ∈ w.devicesOf user) => keeps dev) (w.listed user)
  have leaves : Leaves ⟨False, False, False⟩ (w.listed user) (left _) :=
    (Moves.forM fun dev (_ : dev ∈ w.devicesOf user) => shareRoomKey_leaves payload user dev)
      (w.listed user)
  obtain ⟨_, t, ran⟩ := (Ends.forM ends keeps : Ends World.Ready ((w.devicesOf user).forM _)) _ touched
  rw [ran] at each stays leaves
  refine ⟨t, ran, stays touched, fun user' => ?_, each⟩
  exact (leaves.devices.resolve_left id user').trans (devicesOf_touch w user user')

theorem shareRoomKeys_keeps (payload payload' : RoomKey) (user dev : Bytes)
    (users : List (Bytes × Bool)) :
    Moves (Keeps fun w : World O => w.Reaches payload user dev) (shareRoomKeys payload' users) := by
  induction users with
  | nil => exact .pure _
  | cons first rest ih =>
      refine .bind (fun w reaches => reaches) fun _ => Moves.get_bind fun w => ?_
      exact Moves.bind (.forM fun dev' _ => Does.moves_reaches
        (shareRoomKey_does payload' first.1 dev') payload user dev) (fun _ => ih) w

/-- **No device is left out**: after the two loops each one that the storage lists for one of the
users is reached. -/
theorem shareRoomKeys_reach {users : List (Bytes × Bool)} (ready : w.Ready) :
    ∀ first ∈ users, ∀ dev ∈ w.devicesOf first.1,
      (left ((shareRoomKeys payload users).run w)).Reaches payload first.1 dev := by
  induction users generalizing w with
  | nil =>
      intro first member
      cases member
  | cons first rest ih =>
      obtain ⟨t, ran, ready', devices, each⟩ := shareRoomKey_forM payload first.1 ready
      unfold shareRoomKeys
      rw [run_bind_ok (changeStorage_run _ w), run_get_bind]
      dsimp only
      rw [devicesOf_touch]
      show ∀ user ∈ first :: rest, ∀ dev ∈ w.devicesOf user.1, (left ((_ >>= fun _ => _ :
        Op O Unit).run (w.listed first.1))).Reaches payload user.1 dev
      rw [run_bind_ok ran]
      intro user member dev device
      rcases List.mem_cons.mp member with rfl | later
      · exact shareRoomKeys_keeps payload payload user.1 dev rest t (each dev device)
      · exact ih ready' user later dev (devices user.1 ▸ device)

/-- What `create_outbound_megolm_session` does for a room that the storage knows. -/
theorem createdRoom_reaches {usr msg roomId : Bytes} {fresh : O.Outbound} (ready : w.Ready)
    (member : w.IsMember roomId user) (device : dev ∈ w.devicesOf user) :
    (left ((createdRoom usr msg roomId fresh).run w)).Reaches (roomKeyFor O roomId fresh) user dev := by
  obtain ⟨members, found, inside⟩ := member
  obtain ⟨inRoom, listed⟩ := OrdMap.contains_iff.mp inside
  have asked := w.ready_ask (.inviteUser roomId usr) ready
  obtain ⟨t, shared, does, ran⟩ := createdRoom_shares usr msg fresh ready found
  have reaches : (left ((shareRoomKeys (roomKeyFor O roomId fresh) members.entries).run _)).Reaches
      (roomKeyFor O roomId fresh) user dev :=
    shareRoomKeys_reach asked (user, inRoom) (OrdMap.get?_eq_some.mp listed) dev device
  rw [shared] at reaches
  -- what comes after that takes no key back, whether the text is sent or throws
  have sends : MovesFrom (Does (asking (fun act => ∃ data, act = .roomMessage roomId data)
      fun _ => False)) t (do
        let session ← sendGroupMessage (some fresh) (O.sessionId fresh) roomId msg
        changeStorage fun s => s.setOutboundGroupSession roomId session
          ⟨O.sessionId fresh, O.sessionKey fresh, 0⟩ : Op O Unit) := by
    refine Moves.bind (sendGroupMessage_does _ _ _ _ fun data => ?_) (fun session => ?_) t
    · exact ⟨data, rfl⟩
    · exact changeStorage_does (fun _ => rfl) fun _ => rfl
  rw [ran]
  exact sends.keeps_reaches reaches

/-! ## Claims -/

/-- The answer to a claim has a one-time key for the user, and olm makes a session of the first
one. -/
inductive Usable (w : World O) (user dev : Bytes) : Option ClaimKeys → Prop where
  | key {oneTimeKeys : ClaimKeys} {retrieved : StdMap (Option Bytes)} {device otk : Bytes}
      {rest : List (Bytes × Option Bytes)} {olm : OlmClient O} {session : O.Session}
      (given : oneTimeKeys.get? user = some retrieved)
      (first : retrieved.entries = (device, some otk) :: rest) (olmHere : w.olmclient = some olm)
      (made : O.createOutboundSession olm.account (w.usedKeys dev).curve25519 otk = some session) :
      Usable w user dev (some oneTimeKeys)

/-- Claims are answered with keys that can be used. -/
def Answers (w : World O) (e : Event O) : Prop :=
  ∀ i res, e = .claimed i res → ∀ user dev payload,
    w.pending[i]? = some (.claimKeys user dev payload) → Usable w user dev res

theorem claimedKey_sends {otk : Bytes} {olm : OlmClient O} {session : O.Session} (ready : w.Ready)
    (olmHere : w.olmclient = some olm)
    (made : O.createOutboundSession olm.account (w.usedKeys dev).curve25519 otk = some session) :
    ∃ t, (claimedKey user dev payload (some otk)).run w = .ok () t ∧ t.Sent payload user dev := by
  unfold claimedKey
  dsimp only
  rw [run_bind_ok (changeStorage_run _ w), run_get_bind]
  dsimp only
  rw [getD_touch]
  change ∃ t, (olmclient >>= fun olm => _ : Op O Unit).run (w.lookedUp dev) = _ ∧ _
  rw [run_bind_ok (olmclient_run (w := w.lookedUp dev) olmHere)]
  simp only [show O.createOutboundSession olm.account
    ((w.storage.deviceKeys.get? dev).getD ⟨[], []⟩).curve25519 otk = some session from made]
  rw [run_bind_ok (changeStorage_run _ _)]
  exact ⟨_, request_run _ ready.1, sent_ask ready⟩

theorem claimedKeys_sends {res : Option ClaimKeys} (ready : w.Ready)
    (usable : Usable w user dev res) :
    (left ((claimedKeys user dev payload res).run w)).Sent payload user dev := by
  obtain ⟨given, first, olmHere, made⟩ := usable
  unfold claimedKeys
  simp only [given]
  obtain ⟨t, ran, sent⟩ : ∃ t, (claimedKey user dev payload (some _)).run w = .ok () t ∧
      t.Sent payload user dev := claimedKey_sends ready olmHere made
  rw [first, run_forM_cons, ran]
  refine Moves.forM (R := Keeps fun w : World O => w.Sent payload user dev) (fun rd _ => ?_) t sent
  exact fun w => (claimedKey_uses payload user dev rd.2 w).keeps_sent

/-! ## One event -/

/-- What waits goes on to wait when something else is answered. -/
theorem mem_answer {i : Nat} {c : Pending} (waits : c ∈ w.pending) (other : w.pending[i]? ≠ some c) :
    c ∈ (w.answer i).pending := by
  rw [World.pending_answer]
  obtain ⟨j, inside, rfl⟩ := List.getElem_of_mem waits
  refine List.mem_eraseIdx_iff_getElem?.mpr ⟨j, ?_, List.getElem?_eq_getElem inside⟩
  rintro rfl
  exact other (List.getElem?_eq_getElem inside)

theorem reaches_answer {i : Nat} (reaches : w.Reaches payload user dev)
    (other : w.pending[i]? ≠ some (.claimKeys user dev payload)) :
    (w.answer i).Reaches payload user dev := by
  rcases reaches with ⟨entry, content, among⟩ | waits
  · exact .inl ⟨entry, content, by rw [World.sent_answer]; exact among⟩
  · exact .inr (mem_answer waits other)

theorem callback_reaches {e : Event O} (stepped : step w e = some w') (callback : e.Callback)
    (reaches : w.Reaches payload user dev) : w'.Reaches payload user dev :=
  (callback_step callback stepped).2.keeps_reaches reaches

theorem message_reaches {usr ad msg : Bytes} (stepped : step w (.message usr ad msg) = some w')
    (reaches : w.Reaches payload user dev) : w'.Reaches payload user dev := by
  obtain ⟨client, here, -, ⟨-, rfl⟩ | ⟨-, olm, session, -, -, rfl⟩⟩ := message_step stepped
  · rcases reaches with ⟨entry, content, among⟩ | waits
    · refine .inl ⟨entry, content, ?_⟩
      rw [World.sent_invites here]
      exact List.mem_append_left _ among
    · right
      rw [World.pending_invites here]
      exact List.mem_append_left _ waits
  · rcases reaches with ⟨entry, content, among⟩ | waits
    · refine .inl ⟨entry, content, ?_⟩
      obtain ⟨sessionId, sent⟩ := World.sent_messages here olm session _ msg
      rw [sent]
      exact List.mem_append_left _ among
    · right
      rw [World.pending_messages]
      exact waits

/-- **One event** of a login: who is reached stays so, as claims are answered with keys. -/
theorem step_reaches {e : Event O} (one : OneLogin w e) (answers : Answers w e)
    (stepped : step w e = some w') (reaches : w.Reaches payload user dev) :
    w'.Reaches payload user dev := by
  cases e with
  | opens server username password dbKey fresh =>
      cases opens_online one stepped
      exact reaches
  | loggedIn res => exact callback_reaches stepped trivial reaches
  | keysUploaded login ok => exact callback_reaches stepped trivial reaches
  | initialSynced retry res => exact callback_reaches stepped trivial reaches
  | synced res => exact callback_reaches stepped trivial reaches
  | queriedKeys res => exact (queriedKeys_step stepped).2.keeps_reaches reaches
  | message usr ad msg => exact message_reaches stepped reaches
  | created i roomId fresh usr msg =>
      obtain ⟨_, _, -, waits, does⟩ := created_step stepped
      refine does.keeps_reaches (reaches_answer reaches ?_)
      rw [waits]
      simp
  | claimed i res =>
      obtain ⟨user', dev', payload', -, waits, ended⟩ := claimed_ends stepped
      by_cases same : Pending.claimKeys user' dev' payload' = .claimKeys user dev payload
      · cases same
        left
        have usable := answers i res rfl user dev payload waits
        have ready : w.Ready := by
          obtain ⟨client, here⟩ := client_of_pending waits
          obtain ⟨-, -, olmHere, -⟩ := usable
          exact ⟨by rw [here]; rfl, by rw [olmHere]; rfl⟩
        rw [ended]
        refine claimedKeys_sends (ready_answer i ready) ?_
        obtain ⟨given, first, olmHere, made⟩ := usable
        exact .key given first olmHere made
      · obtain ⟨_, _, _, -, waits', does⟩ := claimed_step stepped
        refine does.keeps_reaches (reaches_answer reaches fun this => same ?_)
        exact Option.some.inj (waits.symm.trans this)
  | disconnect =>
      obtain ⟨-, rfl⟩ := disconnect_step stepped
      exact reaches
  | closes =>
      obtain ⟨-, -, obj, olm, -, -, rfl⟩ := closes_step stepped
      exact reaches

/-! ## Runs -/

/-- **The key of a room reaches everybody it is for.** -/
theorem key_reaches_all {w₁ : World O} {i : Nat} {roomId usr msg : Bytes} {fresh : O.Outbound}
    {events : List (Event O)} (created : step w (.created i roomId fresh usr msg) = some w₁)
    (run : Run step (fun v e => OneLogin v e ∧ Answers v e) w₁ events w') :
    ∀ user dev, w.IsMember roomId user → w.HasDevice user dev →
      w'.Sent (roomKeyFor O roomId fresh) user dev ∨
        .claimKeys user dev (roomKeyFor O roomId fresh) ∈ w'.pending := by
  intro user dev member device
  refine run.invariant ?_ fun v e v' reaches ok stepped => step_reaches ok.1 ok.2 stepped reaches
  obtain ⟨-, waits, ended⟩ := created_ends created
  have ready := created_ready created
  rw [ended]
  exact createdRoom_reaches (ready_answer i ready) member device

/-! ## Alice's phone -/

/-- Bob has asked for a room with Alice, has heard of it, and knows her phone. -/
def introduced : World plain :=
  (exec step start (bobIn ++ [.message alice (bytes "bike") (bytes "hi"),
    hears (bytes "!r") [alice, bob], .queriedKeys (some (phone alice alicesKeys))])).get
      (by decide +kernel)

/-- A one-time key of a user. -/
def oneTimeKey (user : Bytes) : ClaimKeys :=
  OrdMap.empty.set user (OrdMap.empty.set (bytes "PHONE") (some (bytes "one time")))

/-- The room is there, and a one-time key of the phone is being claimed. -/
def claiming : World plain :=
  (step introduced (.created 0 (bytes "!r") (0 : Nat) alice (bytes "hi"))).get (by decide +kernel)

/-- It has come. -/
def told : World plain :=
  (step claiming (.claimed 0 (some (oneTimeKey alice)))).get (by decide +kernel)

theorem answers_told : Answers claiming (.claimed 0 (some (oneTimeKey alice))) := by
  intro i res same user dev payload waits
  cases same
  have only : claiming.pending[0]? =
      some (.claimKeys alice (bytes "PHONE") (roomKeyFor plain (bytes "!r") (0 : Nat))) := by
    decide +kernel
  cases Option.some.inj (waits.symm.trans only)
  exact .key rfl rfl rfl rfl

theorem key_reaches_all_alice :
    told.Sent (roomKeyFor plain (bytes "!r") (0 : Nat)) alice (bytes "PHONE") := by
  have one : OneLogin claiming (.claimed 0 (some (oneTimeKey alice))) := by
    intro server username password dbKey fresh same
    cases same
  have created : step introduced (.created 0 (bytes "!r") (0 : Nat) alice (bytes "hi")) = some claiming :=
    (Option.some_get _).symm
  have run : Run step (fun v e => OneLogin v e ∧ Answers v e) claiming
      [.claimed 0 (some (oneTimeKey alice))] told :=
    .snoc .nil ⟨one, answers_told⟩ (Option.some_get _).symm
  have member : introduced.IsMember (bytes "!r") alice :=
    ⟨(OrdMap.empty.set alice true).set bob true, by decide +kernel, by decide +kernel⟩
  have device : introduced.HasDevice alice (bytes "PHONE") := by
    show bytes "PHONE" ∈ (introduced.storage.devices.get? alice).getD []
    decide +kernel
  have none_ : told.pending = [] := by decide +kernel
  refine (key_reaches_all created run alice (bytes "PHONE") member device).resolve_right
    fun waits => ?_
  rw [none_] at waits
  cases waits

end Piac.Matrix
