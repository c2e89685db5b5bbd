/-
# Client.Shutdown — the chain of callbacks after a disconnect

The callbacks of a login, of its upload of keys and of the syncs ask for the next request of
the chain, and the login returns when no request of it is under way. `matrix disconnect`
sets `g_matrix_shutdown`, which the sync callbacks test only behind their errors, and the
upload not at all (`Callback.Rearms`).

* `effect_does`: what each callback asks for once the flag is set;
* `shutdown_stops_syncing`: no sync is asked for any more exactly if no callback is one of
  those, and then a chain has at most two callbacks left.
-/
import Piac.Client.Callbacks

namespace Piac.Matrix

set_option autoImplicit false

open Piac.Theory.CppString Piac.Theory

variable {O : Mtx}

def Act.IsSync : Act → Prop
  | .sync _ => True
  | _ => False

/-- The callbacks that ask for a sync without a look at `g_matrix_shutdown`. -/
def Callback.Rearms (err : RequestErr) : Callback O → Prop
  | .loginKeysUploaded => err = none
  | .initialSynced _ => retried err = true
  | .synced _ => err.isSome = true
  | _ => False

def Callback.IsLogin : Callback O → Prop
  | .loggedIn _ => True
  | _ => False

/-- A callback, with the error it is called with. -/
abbrev Invocation (O : Mtx) := Callback O × RequestErr

def Invocation.call (c : Invocation O) : Handling O Unit := c.1.call c.2

/-- The client and its log after callbacks, an exception ending its own callback only. -/
def afterCalls (calls : List (Invocation O)) (l : Logged O) : Logged O :=
  attempts Invocation.call calls l

/-- Between the two no sync has been asked for. -/
def NoSync (w w' : World O) : Prop :=
  ∃ acts, w'.sent = w.sent ++ acts ∧ ∀ act ∈ acts, ¬ act.IsSync

/-- The callbacks of the chain that may answer a request. -/
def Act.AnsweredBy : Act → Callback O → Prop
  | .login .., .loggedIn _ => True
  | .uploadKeys, .keysUploaded | .uploadKeys, .loginKeysUploaded => True
  | .sync since, .initialSynced _ => since = []
  | .sync _, .synced _ => True
  | _, _ => False

/-- The callback asks for what the next one answers. -/
def Leads (l : Logged O) (c d : Invocation O) : Prop :=
  ∃ acts, (left (c.call.run l)).world.sent = l.world.sent ++ acts ∧
    ∃ act ∈ acts, act.AnsweredBy d.1

/-- Each callback answers what the one before it has asked for. -/
def Chain : Logged O → List (Invocation O) → Prop
  | l, c :: d :: rest => Leads l c d ∧ Chain (left (c.call.run l)) (d :: rest)
  | _, _ => True

/-! ## One callback -/

/-- What a callback may ask for after a disconnect. -/
def afterShutdown (c : Invocation O) : Limits :=
  { act := fun act => match act with
      | .sync _ => c.1.Rearms c.2
      | .login .. => False
      | .uploadKeys => c.1.IsLogin
      | _ => True
    callback := fun _ => True
    member := fun _ _ => True
    device := fun _ _ => True }

theorem synced_down (res : SyncResponse) {w : World O} (down : w.shutdown = true) :
    (synced (some res)).run w = .ok () w := by
  unfold synced
  rw [run_get_bind, if_pos down, EStateM.run_pure]

theorem initialSynced_down (res : SyncResponse) (retry : Bool) {w : World O}
    (down : w.shutdown = true) : (initialSynced retry (some res)).run w = .ok () w := by
  unfold initialSynced
  rw [run_get_bind, if_pos down, EStateM.run_pure]

theorem effect_does (c : Invocation O) {w : World O} (down : w.shutdown = true) :
    MovesFrom (Does (afterShutdown c)) w (c.1.effect c.2) := by
  obtain ⟨c, err⟩ := c
  cases c with
  | keysUploaded => exact keysUploaded_does (by intro first; cases first) w
  | loginKeysUploaded =>
      exact keysUploaded_does (fun _ done => Option.isNone_iff_eq_none.mp done) w
  | queriedKeys res =>
      cases err with
      | some e => exact Does.refl w
      | none => exact queriedKeys_does res (fun _ _ _ => trivial) w
  | claimedKeys member dev payload res =>
      refine ((claimedKeys_does member dev payload _).mono fun _ _ does => ?_) w
      refine does.mono ?_ (fun _ _ => trivial) (fun _ _ _ => trivial) fun _ _ _ => trivial
      rintro act ⟨content, rfl⟩
      exact trivial
  | createdRoom usr msg roomId fresh =>
      refine (createdRoom_does usr msg roomId fresh).mono ?_ (fun _ _ => trivial)
        (fun _ _ _ => trivial) fun _ _ _ => trivial
      rintro act (rfl | ⟨data, rfl⟩ | ⟨user, dev, -, -, ⟨content, rfl⟩ | rfl⟩)
      · exact trivial
      · exact trivial
      · exact trivial
      · exact trivial
  | loggedIn res => exact loggedIn_does _ trivial w
  | initialSynced res =>
      cases err with
      | some e =>
          show MovesFrom _ w (if Callback.retried (some e) = true then request (.sync []) else return)
          split
          · rename_i again
            exact request_does again w
          · exact Does.refl w
      | none =>
          show MovesFrom _ w (Matrix.initialSynced false (some res))
          rw [MovesFrom, initialSynced_down res false down]
          exact Does.refl w
  | synced res =>
      cases err with
      | some e => exact Moves.bind mtxclient_does (fun client => request_does rfl) w
      | none =>
          show MovesFrom _ w (Matrix.synced (some res))
          rw [MovesFrom, synced_down res down]
          exact Does.refl w
  | sentMessage => exact Does.refl w
  | toDevice => exact Does.refl w
  | invited => exact Does.refl w
  | joinedRoom roomId => exact Does.refl w

theorem call_does (c : Invocation O) {l : Logged O} (down : l.world.shutdown = true) :
    Does (afterShutdown c) l.world (left (c.call.run l)).world := by
  have does := effect_does c down
  rw [MovesFrom, ← call_world] at does
  exact does

/-- A callback that asks without a look at the flag asks for one sync. -/
theorem rearms_syncs {c : Invocation O} (rearms : c.1.Rearms c.2) {l : Logged O}
    (ready : l.world.Ready) :
    ∃ since, (left (c.call.run l)).world.sent = l.world.sent ++ [.sync since] := by
  obtain ⟨c, err⟩ := c
  obtain ⟨client, here⟩ := Option.isSome_iff_exists.mp ready.1
  obtain ⟨olm, olmHere⟩ := Option.isSome_iff_exists.mp ready.2
  have asked (since : Bytes) : (l.world.ask (.sync since)).sent = l.world.sent ++ [.sync since] :=
    World.sent_ask _ ready.1
  rw [show (left ((Invocation.call (c, err)).run l)).world = _ from call_world c err l]
  cases c with
  | loginKeysUploaded =>
      cases rearms
      refine ⟨[], ?_⟩
      show (left ((olmclient >>= fun olm => (setAccount (O.markKeysAsPublished olm.account) >>=
        fun _ => request (.sync []) : Op O Unit)).run l.world)).sent = _
      rw [run_bind_ok (olmclient_run olmHere)]
      exact (congrArg World.sent (left_request _ _)).trans (World.sent_ask _ ready.1)
  | initialSynced res =>
      cases err with
      | none => cases rearms
      | some e =>
          refine ⟨[], ?_⟩
          show (left ((if Callback.retried (some e) = true then request (.sync []) else
            return : Op O Unit).run l.world)).sent = _
          rw [if_pos (show Callback.retried (some e) = true from rearms), left_request, asked]
  | synced res =>
      cases err with
      | none => cases rearms
      | some e =>
          refine ⟨client.nextBatch, ?_⟩
          show (left ((mtxclient >>= fun client =>
            request (.sync client.nextBatch) : Op O Unit).run l.world)).sent = _
          rw [run_bind_ok (mtxclient_run here), left_request, asked]
  | _ => exact rearms.elim

/-- **After a disconnect** a callback asks for no sync exactly if it is not one of those. -/
theorem call_noSync (c : Invocation O) {l : Logged O} (ready : l.world.Ready)
    (down : l.world.shutdown = true) :
    NoSync l.world (left (c.call.run l)).world ↔ ¬ c.1.Rearms c.2 := by
  constructor
  · rintro ⟨acts, sent, none_⟩ rearms
    obtain ⟨since, syncs⟩ := rearms_syncs rearms ready
    rw [List.append_cancel_left (sent.symm.trans syncs)] at none_
    exact none_ _ List.mem_cons_self trivial
  · intro calm
    obtain ⟨acts, sent, within⟩ := (call_does c down).sent
    refine ⟨acts, sent, fun act among isSync => calm ?_⟩
    have allowed := within act among
    cases act with
    | sync since => exact allowed
    | _ => exact isSync.elim

/-! ## All callbacks -/

theorem NoSync.refl (w : World O) : NoSync w w := ⟨[], (List.append_nil _).symm, nofun⟩

/-- Requests are not withdrawn. -/
theorem NoSync.trans_iff {u v w : World O} (first : ∃ acts, v.sent = u.sent ++ acts)
    (second : ∃ acts, w.sent = v.sent ++ acts) : NoSync u w ↔ NoSync u v ∧ NoSync v w := by
  obtain ⟨acts, first⟩ := first
  obtain ⟨acts', second⟩ := second
  unfold NoSync
  rw [second, first]
  simp only [List.append_assoc, List.append_cancel_left_eq, exists_eq_left', ← List.forall_mem_append]

theorem afterCalls_sent {calls : List (Invocation O)} {l : Logged O}
    (down : l.world.shutdown = true) :
    ∃ acts, (afterCalls calls l).world.sent = l.world.sent ++ acts := by
  induction calls generalizing l with
  | nil => exact ⟨[], (List.append_nil _).symm⟩
  | cons c rest ih =>
      have does := call_does c down
      obtain ⟨acts, sent, -⟩ := does.sent
      obtain ⟨acts', later⟩ := ih (does.shutdown.trans down)
      refine ⟨acts ++ acts', later.trans ?_⟩
      rw [sent, List.append_assoc]

theorem afterCalls_noSync {calls : List (Invocation O)} {l : Logged O} (ready : l.world.Ready)
    (down : l.world.shutdown = true) :
    NoSync l.world (afterCalls calls l).world ↔ ∀ c ∈ calls, ¬ c.1.Rearms c.2 := by
  induction calls generalizing l with
  | nil => exact iff_of_true (NoSync.refl _) nofun
  | cons c rest ih =>
      have does := call_does c down
      obtain ⟨acts, sent, -⟩ := does.sent
      have later := does.shutdown.trans down
      show NoSync l.world (afterCalls rest (left (c.call.run l))).world ↔ _
      rw [NoSync.trans_iff ⟨acts, sent⟩ (afterCalls_sent later), call_noSync c ready down,
        ih (does.ready ready) later, List.forall_mem_cons]

/-- After a disconnect a callback that does not ask for a sync leads to another one only if it
is that of the login, and to none that leads on. -/
theorem leads_login {c d : Invocation O} {l : Logged O} (down : l.world.shutdown = true)
    (calm : ¬ c.1.Rearms c.2) (leads : Leads l c d) : c.1.IsLogin ∧ ¬ d.1.IsLogin := by
  obtain ⟨acts, sent, act, among, answered⟩ := leads
  obtain ⟨acts', sent', within⟩ := (call_does c down).sent
  rw [List.append_cancel_left (sent.symm.trans sent')] at among
  have allowed := within act among
  cases act with
  | sync since => exact absurd allowed calm
  | login username password => exact allowed.elim
  | uploadKeys =>
      refine ⟨allowed, fun login => ?_⟩
      obtain ⟨d, err⟩ := d
      cases d with
      | loggedIn res => exact answered
      | _ => exact login
  | _ => exact answered.elim

/-- **A chain ends**: at most the upload of a login is still waited for. -/
theorem chain_length {calls : List (Invocation O)} {l : Logged O} (down : l.world.shutdown = true)
    (chain : Chain l calls) (calm : ∀ c ∈ calls, ¬ c.1.Rearms c.2) : calls.length ≤ 2 := by
  match calls with
  | [] => exact Nat.zero_le _
  | [_] => exact Nat.le_succ 1
  | [_, _] => exact le_rfl
  | c :: d :: e :: rest =>
      obtain ⟨first, second, -⟩ := chain
      have later := (call_does c down).shutdown.trans down
      have login := leads_login later (calm d (by simp)) second
      exact absurd login.1 (leads_login down (calm c (by simp)) first).2

/-- **Shutdown stops syncing exactly if** none of the callbacks is an upload of the login that
succeeds, a sync that fails, or an initial sync that fails with another status than 200: after
`g_matrix_shutdown` has been set, any callbacks ask for no sync if and only if they are none of
these, and a chain of such callbacks ends after two at most. -/
theorem shutdown_stops_syncing {l : Logged O} (ready : l.world.Ready)
    (down : l.world.shutdown = true) (calls : List (Invocation O)) :
    (NoSync l.world (afterCalls calls l).world ↔ ∀ c ∈ calls, ¬ c.1.Rearms c.2) ∧
      (Chain l calls → (∀ c ∈ calls, ¬ c.1.Rearms c.2) → calls.length ≤ 2) :=
  ⟨afterCalls_noSync ready down, chain_length down⟩

/-! ## A server that keeps failing -/

/-- A process that is logged in, after `matrix disconnect`. -/
def disconnecting : Logged plain := { logged plain (1 : Nat) with
  world := { online plain (1 : Nat) with shutdown := true } }

/-- A sync that the server has failed. -/
def failing : Invocation plain := (.synced ⟨[], [], [], [], bytes "s1"⟩, some limitExceeded)

theorem shutdown_stops_syncing_answer : NoSync disconnecting.world
    (afterCalls [(.synced ⟨[], [], [], [], bytes "s1"⟩, none)] disconnecting).world := by
  refine (shutdown_stops_syncing (l := disconnecting) ⟨rfl, rfl⟩ rfl
    [(.synced ⟨[], [], [], [], bytes "s1"⟩, none)]).1.mpr ?_
  intro c among
  cases List.mem_singleton.mp among
  exact Bool.false_ne_true

theorem failing_sent (n : Nat) {l : Logged plain} {client : HttpClient}
    (here : l.world.mtxclient = some client) :
    (afterCalls (List.replicate n failing) l).world.sent =
      l.world.sent ++ List.replicate n (.sync client.nextBatch) := by
  induction n generalizing l client with
  | zero => exact (List.append_nil _).symm
  | succ n ih =>
      have asked : (left (failing.call.run l)).world = l.world.ask (.sync client.nextBatch) := by
        rw [show (left (failing.call.run l)).world = _ from call_world failing.1 failing.2 l]
        show left ((mtxclient >>= fun client =>
          request (.sync client.nextBatch) : Op plain Unit).run l.world) = _
        rw [run_bind_ok (mtxclient_run here), left_request]
      have next : (left (failing.call.run l)).world.mtxclient =
          some { client with sent := client.sent ++ [.sync client.nextBatch] } := by
        rw [asked, World.ask, here]
        rfl
      show (afterCalls (List.replicate n failing) (left (failing.call.run l))).world.sent = _
      rw [ih next, asked, World.sent_ask _ (by rw [here]; rfl), List.append_assoc]
      rfl

/-- While the server fails, each failed sync is followed by another one. -/
theorem failing_syncs_go_on : (∀ n,
      (afterCalls (List.replicate n failing) disconnecting).world.sent =
        List.replicate n (.sync [])) ∧
    ¬ ∀ (l : Logged plain) (calls : List (Invocation plain)), l.world.Ready →
      l.world.shutdown = true → NoSync l.world (afterCalls calls l).world := by
  have goOn (n : Nat) : (afterCalls (List.replicate n failing) disconnecting).world.sent =
      List.replicate n (.sync []) := failing_sent n (l := disconnecting) rfl
  refine ⟨goOn, fun all => ?_⟩
  obtain ⟨acts, sent, none_⟩ := all disconnecting [failing] ⟨rfl, rfl⟩ rfl
  have one : acts = [.sync []] := sent.symm.trans (goOn 1)
  exact none_ (.sync []) (one ▸ List.mem_singleton_self _) trivial

end Piac.Matrix
