/-
# Client.Calls — any number of clients at one daemon

Each call is one `pirate_send` of a command. Its copies go to the daemon and the
replies back over a network that loses and delays either, in any order; a client only
hears what comes back on the socket it has now, so the copy a reply belongs to is part
of the reply. The daemon executes one copy at a time and ends if that throws.

`commands_at_least_once`: a command takes effect at most once for each copy that was
sent, five at most, and the client is told the reply of the last copy; if no command
was sent twice and every one that was executed got its reply, each took effect exactly
once (`Theory.Calls`). `not_exactly_once` has the two ways in which a time-out breaks
that.
-/
import Piac.Client.Pirate
import Piac.Daemon.Request
import Piac.Daemon.Reference
import Piac.Theory.Calls
import Piac.Theory.Transition
import Mathlib.Logic.Function.Basic

namespace Piac

set_option autoImplicit false

open Piac.Theory.CppString Piac.Theory.Transition Piac.Theory.Calls

universe u

/-! ## Calls -/

/-- A call at its client: nothing before it begins, then the loop and the number of sockets it
has had, which is the number of copies it has sent. -/
structure ClientCall where
  pirate : Option Pirate
  copies : Nat
  deriving DecidableEq

/-- The clients' calls, the network and the daemon, and what has happened. -/
structure Clients (K : Type u) where
  store : Store
  running : Bool
  call : K → ClientCall
  requests : List (K × Nat)
  replies : List (K × Nat × Bytes)
  log : History K Bytes

inductive CallLabel (K : Type u) where
  | start (k : K)
  /-- The daemon takes copy `n` of the call. -/
  | execute (k : K) (n : Nat)
  | loseRequest (k : K) (n : Nat)
  | loseReply (k : K) (n : Nat) (reply : Bytes)
  | deliver (k : K) (n : Nat) (reply : Bytes)
  | timeout (k : K)

variable {K : Type u}

/-- A daemon before any call. -/
def Clients.init (s : Store) : Clients K :=
  { store := s, running := true, call := fun _ => ⟨none, 0⟩, requests := [], replies := [], log := [] }

variable (X : Platform) (myPeers : List Bytes) (files : Files) (cmd : K → Bytes)

/-- The store after a command, and the reply. -/
def serve (s : Store) (k : K) : Option (Store × Bytes) :=
  (dbClientOp X myPeers files s (cmd k)).toOption.map fun (s, reply, _) => (s, reply)

variable [DecidableEq K]

def callStep (w : Clients K) : CallLabel K → Option (Clients K)
  | .start k =>
      if (w.call k).pirate = none then
        some { w with call := Function.update w.call k ⟨some .start, 1⟩
                      requests := w.requests ++ [(k, 1)]
                      log := w.log ++ [.sent k] }
      else none
  | .execute k n =>
      if w.running = true ∧ (k, n) ∈ w.requests then
        let requests := w.requests.erase (k, n)
        match serve X myPeers files cmd w.store k with
        | some (store, reply) =>
            some { w with store, requests
                          replies := w.replies ++ [(k, n, reply)]
                          log := w.log ++ [.executed k n reply] }
        | none => some { w with running := false, requests }
      else none
  | .loseRequest k n =>
      if (k, n) ∈ w.requests then some { w with requests := w.requests.erase (k, n) } else none
  | .loseReply k n reply =>
      if (k, n, reply) ∈ w.replies then some { w with replies := w.replies.erase (k, n, reply) }
      else none
  | .deliver k n reply =>
      match (w.call k).pirate with
      | none => none
      | some p =>
          if p.reply = none ∧ n = (w.call k).copies ∧ (k, n, reply) ∈ w.replies then
            let (p, _) := p.poll (.input reply)
            some { w with call := Function.update w.call k ⟨some p, n⟩
                          replies := w.replies.erase (k, n, reply)
                          log := if p.reply = none then w.log else w.log ++ [.returned k n reply] }
          else none
  | .timeout k =>
      match (w.call k).pirate with
      | none => none
      | some p =>
          if p.reply = none then
            let n := (w.call k).copies
            let (p, again) := p.poll .timeout
            if again then
              some { w with call := Function.update w.call k ⟨some p, n + 1⟩
                            requests := w.requests ++ [(k, n + 1)] }
            else some { w with call := Function.update w.call k ⟨some p, n⟩ }
          else none

/-! ## What each event leaves -/

/-- The copies on their way have not been executed, replies are of executions, and a client that
still waits has as many tries left as it has not used. -/
structure Tracked (s : Store) (w : Clients K) : Prop where
  outcome : AtLeastOnce (serve X myPeers files cmd) s w.log w.store
  distinct : w.requests.Nodup
  request : ∀ k n, (k, n) ∈ w.requests →
    1 ≤ n ∧ n ≤ (w.call k).copies ∧ ∀ r, .executed k n r ∉ w.log
  reply : ∀ k n r, (k, n, r) ∈ w.replies → .executed k n r ∈ w.log
  executed : ∀ k n r, .executed k n r ∈ w.log → 1 ≤ n ∧ n ≤ (w.call k).copies
  sent : ∀ k, .sent k ∈ w.log ↔ (w.call k).pirate ≠ none
  idle : ∀ k, (w.call k).pirate = none → (w.call k).copies = 0
  waiting : ∀ k p, (w.call k).pirate = some p → p.reply = none →
    (w.call k).copies + p.retries = requestRetries + 1 ∧ 1 ≤ p.retries
  limit : ∀ k, (w.call k).copies ≤ requestRetries
  returned : ∀ k n r, .returned k n r ∈ w.log →
    n = (w.call k).copies ∧ ∃ p, (w.call k).pirate = some p ∧ p.reply = some r

variable {X myPeers files cmd}

omit [DecidableEq K] in
theorem Tracked.init (s : Store) : Tracked X myPeers files cmd s (.init s) where
  outcome := .nil s
  distinct := .nil
  request _ _ member := nomatch member
  reply _ _ _ member := nomatch member
  executed _ _ _ member := nomatch member
  sent _ := ⟨(nomatch ·), (absurd rfl ·)⟩
  idle _ _ := rfl
  waiting _ _ begun := nomatch begun
  limit _ := Nat.zero_le _
  returned _ _ _ member := nomatch member

namespace Tracked

variable {s : Store} {w w' : Clients K}

/-- A client sends one more copy, the first or another one. -/
theorem asks (tracked : Tracked X myPeers files cmd s w) {k : K} {p : Pirate}
    (tries : (w.call k).copies + p.retries = requestRetries)
    (more : 1 ≤ p.retries) (silent : ∀ n r, .returned k n r ∉ w.log) {log : History K Bytes}
    (outcome : AtLeastOnce (serve X myPeers files cmd) s log w.store)
    (grows : ∀ e, e ∈ log ↔ e ∈ w.log ∨ e = .sent k) :
    Tracked X myPeers files cmd s { w with
      call := Function.update w.call k ⟨some p, (w.call k).copies + 1⟩
      requests := w.requests ++ [(k, (w.call k).copies + 1)]
      log } := by
  have here : Function.update w.call k ⟨some p, (w.call k).copies + 1⟩ k =
      ⟨some p, (w.call k).copies + 1⟩ := Function.update_self ..
  have there {k' : K} (other : k' ≠ k) :
      Function.update w.call k ⟨some p, (w.call k).copies + 1⟩ k' = w.call k' :=
    Function.update_of_ne other ..
  have copies (k' : K) : (w.call k').copies ≤
      (Function.update w.call k ⟨some p, (w.call k).copies + 1⟩ k').copies := by
    by_cases same : k' = k
    · subst same
      rw [here]
      exact Nat.le_succ _
    · rw [there same]
  have executed {k' : K} {n : Nat} {r : Bytes} (member : .executed k' n r ∈ log) :
      .executed k' n r ∈ w.log := ((grows _).mp member).resolve_right nofun
  constructor
  case outcome => exact outcome
  case distinct =>
    refine List.nodup_append.mpr ⟨tracked.distinct, List.nodup_singleton _, ?_⟩
    rintro e member e' last rfl
    cases List.mem_singleton.mp last
    have bound := (tracked.request k _ member).2.1
    omega
  case request =>
    intro k' n' member
    rcases List.mem_append.mp member with old | new
    · obtain ⟨first, sent, unexecuted⟩ := tracked.request k' n' old
      exact ⟨first, sent.trans (copies k'), fun r member => unexecuted r (executed member)⟩
    · cases List.mem_singleton.mp new
      refine ⟨Nat.succ_pos _, by dsimp only; rw [here], fun r member => ?_⟩
      have bound := (tracked.executed k _ r (executed member)).2
      omega
  case reply => exact fun k' n r member => (grows _).mpr (.inl (tracked.reply k' n r member))
  case executed =>
    intro k' n r member
    obtain ⟨first, sent⟩ := tracked.executed k' n r (executed member)
    exact ⟨first, sent.trans (copies k')⟩
  case sent =>
    intro k'
    dsimp only
    rw [grows]
    by_cases same : k' = k
    · subst same
      exact iff_of_true (.inr rfl) (by rw [here]; nofun)
    · rw [there same, ← tracked.sent k']
      exact or_iff_left fun new => same (by cases new; rfl)
  case idle =>
    intro k' none_
    dsimp only at none_ ⊢
    by_cases same : k' = k
    · subst same
      rw [here] at none_
      cases none_
    · rw [there same] at none_ ⊢
      exact tracked.idle k' none_
  case waiting =>
    intro k' p' begun open_
    dsimp only at begun ⊢
    by_cases same : k' = k
    · subst same
      rw [here] at begun ⊢
      cases begun
      exact ⟨by dsimp only; omega, more⟩
    · rw [there same] at begun ⊢
      exact tracked.waiting k' p' begun open_
  case limit =>
    intro k'
    dsimp only
    by_cases same : k' = k
    · subst same
      rw [here]
      dsimp only
      omega
    · rw [there same]
      exact tracked.limit k'
  case returned =>
    intro k' n r member
    have old : .returned k' n r ∈ w.log := ((grows _).mp member).resolve_right nofun
    have other : k' ≠ k := by
      rintro rfl
      exact silent n r old
    dsimp only
    rw [there other]
    exact tracked.returned k' n r old

/-- A client that waits is done. -/
theorem ends (tracked : Tracked X myPeers files cmd s w) {k : K} {p p' : Pirate} {reply : Bytes}
    (begun : (w.call k).pirate = some p) (answered : p'.reply = some reply)
    (silent : ∀ n r, .returned k n r ∉ w.log) {log : History K Bytes}
    (outcome : AtLeastOnce (serve X myPeers files cmd) s log w.store)
    (grows : ∀ e ∈ w.log, e ∈ log)
    (only : ∀ e ∈ log, e ∈ w.log ∨ e = .returned k (w.call k).copies reply)
    {replies : List (K × Nat × Bytes)} (fewer : replies ⊆ w.replies) :
    Tracked X myPeers files cmd s { w with
      call := Function.update w.call k ⟨some p', (w.call k).copies⟩, replies, log } := by
  have here : Function.update w.call k ⟨some p', (w.call k).copies⟩ k =
      ⟨some p', (w.call k).copies⟩ := Function.update_self ..
  have there {k' : K} (other : k' ≠ k) :
      Function.update w.call k ⟨some p', (w.call k).copies⟩ k' = w.call k' :=
    Function.update_of_ne other ..
  have copies (k' : K) : (Function.update w.call k ⟨some p', (w.call k).copies⟩ k').copies =
      (w.call k').copies := by
    by_cases same : k' = k
    · subst same
      rw [here]
    · rw [there same]
  have executed {k' : K} {n : Nat} {r : Bytes} (member : .executed k' n r ∈ log) :
      .executed k' n r ∈ w.log := (only _ member).resolve_right nofun
  constructor
  case outcome => exact outcome
  case distinct => exact tracked.distinct
  case request =>
    intro k' n member
    obtain ⟨first, sent, unexecuted⟩ := tracked.request k' n member
    exact ⟨first, by dsimp only; rw [copies]; exact sent, fun r member => unexecuted r (executed member)⟩
  case reply => exact fun k' n r member => grows _ (tracked.reply k' n r (fewer member))
  case executed =>
    intro k' n r member
    dsimp only
    rw [copies]
    exact tracked.executed k' n r (executed member)
  case sent =>
    intro k'
    have same_ : .sent k' ∈ log ↔ .sent k' ∈ w.log :=
      ⟨fun member => (only _ member).resolve_right nofun, grows _⟩
    dsimp only
    rw [same_, tracked.sent k']
    by_cases same : k' = k
    · subst same
      rw [here, begun]
      exact iff_of_true nofun nofun
    · rw [there same]
  case idle =>
    intro k' none_
    dsimp only at none_ ⊢
    by_cases same : k' = k
    · subst same
      rw [here] at none_
      cases none_
    · rw [copies]
      rw [there same] at none_
      exact tracked.idle k' none_
  case waiting =>
    intro k' q begun' open_
    dsimp only at begun' ⊢
    by_cases same : k' = k
    · subst same
      rw [here] at begun'
      cases begun'
      rw [answered] at open_
      cases open_
    · rw [there same] at begun' ⊢
      exact tracked.waiting k' q begun' open_
  case limit =>
    intro k'
    dsimp only
    rw [copies]
    exact tracked.limit k'
  case returned =>
    intro k' n r member
    dsimp only
    rw [copies]
    rcases only _ member with old | new
    · have other : k' ≠ k := by
        rintro rfl
        exact silent n r old
      rw [there other]
      exact tracked.returned k' n r old
    · cases new
      rw [here]
      exact ⟨rfl, p', rfl, answered⟩

omit [DecidableEq K] in
/-- Nothing has been returned to a client that waits. -/
theorem silent (tracked : Tracked X myPeers files cmd s w) {k : K} {p : Pirate}
    (begun : (w.call k).pirate = some p) (waits : p.reply = none) (n : Nat) (r : Bytes) :
    .returned k n r ∉ w.log := by
  intro returned
  obtain ⟨-, p', begun', answered⟩ := tracked.returned k n r returned
  cases begun.symm.trans begun'
  rw [waits] at answered
  cases answered

theorem start (tracked : Tracked X myPeers files cmd s w) {k : K}
    (stepped : callStep X myPeers files cmd w (.start k) = some w') :
    Tracked X myPeers files cmd s w' := by
  obtain ⟨idle, same⟩ := Option.ite_none_right_eq_some.mp stepped
  cases same
  have copies := tracked.idle k idle
  have unsent : .sent k ∉ w.log := fun member => (tracked.sent k).mp member idle
  have silent (n : Nat) (r : Bytes) : .returned k n r ∉ w.log := by
    intro returned
    obtain ⟨-, p, begun, -⟩ := tracked.returned k n r returned
    rw [idle] at begun
    cases begun
  have outcome : AtLeastOnce (serve X myPeers files cmd) s (w.log ++ [.sent k]) w.store :=
    tracked.outcome.snoc unsent rfl
  have asked := tracked.asks (p := .start) (by rw [copies]; rfl) (by decide) silent outcome
    fun e => by rw [List.mem_append, List.mem_singleton]
  rw [copies] at asked
  exact asked

theorem execute (tracked : Tracked X myPeers files cmd s w) {k : K} {n : Nat}
    (stepped : callStep X myPeers files cmd w (.execute k n) = some w') :
    Tracked X myPeers files cmd s w' := by
  obtain ⟨⟨-, member⟩, done⟩ := Option.ite_none_right_eq_some.mp stepped
  obtain ⟨first, sent, unexecuted⟩ := tracked.request k n member
  have taken : (k, n) ∉ w.requests.erase (k, n) := tracked.distinct.not_mem_erase
  cases answered : serve X myPeers files cmd w.store k with
  | none =>
      simp only [answered, Option.some.injEq] at done
      subst done
      exact { tracked with
        distinct := tracked.distinct.erase _
        request := fun k' n' member => tracked.request k' n' (List.mem_of_mem_erase member) }
  | some result =>
      obtain ⟨store, reply⟩ := result
      simp only [answered, Option.some.injEq] at done
      subst done
      have begun : .sent k ∈ w.log := by
        refine (tracked.sent k).mpr fun idle => ?_
        have none_ := tracked.idle k idle
        omega
      constructor
      case outcome => exact tracked.outcome.execute ⟨begun, unexecuted⟩ answered
      case distinct => exact tracked.distinct.erase _
      case request =>
        intro k' n' member
        have old := tracked.request k' n' (List.mem_of_mem_erase member)
        grind
      all_goals grind [Tracked]

omit [DecidableEq K] in
theorem lose (tracked : Tracked X myPeers files cmd s w) {requests : List (K × Nat)}
    {replies : List (K × Nat × Bytes)} (fewer : requests.Sublist w.requests)
    (fewer' : replies ⊆ w.replies) :
    Tracked X myPeers files cmd s { w with requests, replies } :=
  { tracked with
    distinct := tracked.distinct.sublist fewer
    request := fun k n member => tracked.request k n (fewer.subset member)
    reply := fun k n r member => tracked.reply k n r (fewer' member) }

theorem deliver (tracked : Tracked X myPeers files cmd s w) {k : K} {n : Nat} {reply : Bytes}
    (stepped : callStep X myPeers files cmd w (.deliver k n reply) = some w') :
    Tracked X myPeers files cmd s w' := by
  simp only [callStep] at stepped
  split at stepped
  · cases stepped
  rename_i p begun
  obtain ⟨⟨waits, rfl, member⟩, same⟩ := Option.ite_none_right_eq_some.mp stepped
  cases same
  have executed := tracked.reply k _ reply member
  have silent := tracked.silent begun waits
  by_cases empty : reply = []
  · have idle : p.poll (.input reply) = (p, false) := by simp [Pirate.poll, empty]
    have unchanged : Function.update w.call k ⟨some p, (w.call k).copies⟩ = w.call := by
      rw [← begun]
      exact Function.update_eq_self ..
    rw [idle]
    dsimp only
    rw [if_pos waits, unchanged]
    exact tracked.lose (List.Sublist.refl _) List.erase_subset
  · have done : p.poll (.input reply) = (⟨0, some reply⟩, false) := by simp [Pirate.poll, empty]
    rw [done]
    have outcome : AtLeastOnce (serve X myPeers files cmd) s
        (w.log ++ [.returned k (w.call k).copies reply]) w.store :=
      tracked.outcome.snoc ⟨executed, silent⟩ rfl
    refine tracked.ends begun rfl silent outcome (fun e old => List.mem_append_left _ old)
      (fun e member => ?_) List.erase_subset
    exact (List.mem_append.mp member).imp_right List.mem_singleton.mp

theorem timeout (tracked : Tracked X myPeers files cmd s w) {k : K}
    (stepped : callStep X myPeers files cmd w (.timeout k) = some w') :
    Tracked X myPeers files cmd s w' := by
  simp only [callStep] at stepped
  split at stepped
  · cases stepped
  rename_i p begun
  obtain ⟨waits, same⟩ := Option.ite_none_right_eq_some.mp stepped
  obtain ⟨left, one⟩ := tracked.waiting k p begun waits
  have silent := tracked.silent begun waits
  by_cases last : p.retries - 1 = 0
  · have done : p.poll .timeout = (⟨0, some (bytes "No response from server")⟩, false) := by
      simp [Pirate.poll, last]
    rw [done] at same
    cases same
    exact tracked.ends begun rfl silent tracked.outcome (fun _ => id) (fun _ => .inl)
      (List.Subset.refl _)
  · have again : p.poll .timeout = (⟨p.retries - 1, none⟩, true) := by simp [Pirate.poll, last]
    rw [again] at same
    cases same
    have sent : .sent k ∈ w.log := (tracked.sent k).mpr (by rw [begun]; nofun)
    refine tracked.asks (by dsimp only; omega) (by dsimp only; omega) silent tracked.outcome
      fun e => (or_iff_left_of_imp ?_).symm
    rintro rfl
    exact sent

theorem step {l : CallLabel K} (tracked : Tracked X myPeers files cmd s w)
    (stepped : callStep X myPeers files cmd w l = some w') : Tracked X myPeers files cmd s w' := by
  cases l with
  | start k => exact tracked.start stepped
  | execute k n => exact tracked.execute stepped
  | loseRequest k n =>
      obtain ⟨-, same⟩ := Option.ite_none_right_eq_some.mp stepped
      cases same
      exact tracked.lose List.erase_sublist (List.Subset.refl _)
  | loseReply k n reply =>
      obtain ⟨-, same⟩ := Option.ite_none_right_eq_some.mp stepped
      cases same
      exact tracked.lose (List.Sublist.refl _) List.erase_subset
  | deliver k n reply => exact tracked.deliver stepped
  | timeout k => exact tracked.timeout stepped

end Tracked

theorem tracked_of_run {s : Store} {ls : List (CallLabel K)} {w : Clients K}
    (run : Run (callStep X myPeers files cmd) (fun _ _ => True) (.init s) ls w) :
    Tracked X myPeers files cmd s w :=
  run.invariant (.init s) fun _ _ _ tracked _ stepped => tracked.step stepped

/-! ## What the clients are told -/

/-- The copies of a call that were executed. -/
def executedCopies (h : History K Bytes) (k : K) : List Nat :=
  h.filterMap fun
    | .executed k' n _ => if k' = k then some n else none
    | _ => none

theorem mem_executedCopies {h : History K Bytes} {k : K} {n : Nat} :
    n ∈ executedCopies h k ↔ ∃ r, .executed k n r ∈ h := by
  simp only [executedCopies, List.mem_filterMap]
  constructor
  · rintro ⟨e, member, same⟩
    cases e with
    | executed k' n' r =>
        dsimp only at same
        split at same <;> cases same
        rename_i here
        exact ⟨r, here ▸ member⟩
    | sent _ => cases same
    | returned _ _ _ => cases same
  · rintro ⟨r, member⟩
    exact ⟨_, member, if_pos rfl⟩

theorem nodup_executedCopies {h : History K Bytes} (grounded : Grounded h) (k : K) :
    (executedCopies h k).Nodup := by
  induction grounded with
  | nil => exact .nil
  | @snoc h e _ grounds ih =>
      have split : executedCopies (h ++ [e]) k = executedCopies h k ++ executedCopies [e] k :=
        List.filterMap_append ..
      rw [split]
      cases e with
      | sent k' => simpa [executedCopies] using ih
      | returned k' n r => simpa [executedCopies] using ih
      | executed k' n r =>
          by_cases same : k' = k
          · subst same
            have fresh : n ∉ executedCopies h k' := by
              intro again
              obtain ⟨r', executed⟩ := mem_executedCopies.mp again
              exact grounds.2 r' executed
            have new : executedCopies [.executed k' n r] k' = [n] := by simp [executedCopies]
            rw [new]
            exact List.nodup_append.mpr ⟨ih, List.nodup_singleton n, fun a member b last => by
              rw [List.mem_singleton.mp last]
              rintro rfl
              exact fresh member⟩
          · have none_ : executedCopies [.executed k' n r] k = [] := by simp [executedCopies, same]
            rw [none_, List.append_nil]
            exact ih

/-- **A command takes effect at least once, and exactly once if it is sent once.** After any run
the store is that of the executed copies one after the other; a reply that is returned is the one
of the last copy sent, executed between the first send and the return; of each call no copy is
executed twice and at most five were sent. If each call was sent once and every one executed has
returned, each took effect exactly once in an order that fits. -/
theorem commands_at_least_once {s : Store} {ls : List (CallLabel K)} {w : Clients K}
    (run : Run (callStep X myPeers files cmd) (fun _ _ => True) (.init s) ls w) :
    serial (serve X myPeers files cmd) s ((executions w.log).map Prod.fst) =
        some (w.store, (executions w.log).map Prod.snd) ∧
      (∀ before k n r after, w.log = before ++ .returned k n r :: after →
        n = (w.call k).copies ∧
          ∃ l₁ l₂ l₃, before = l₁ ++ .sent k :: l₂ ++ .executed k n r :: l₃) ∧
      (∀ k, (executedCopies w.log k).Nodup ∧
        (∀ n ∈ executedCopies w.log k, 1 ≤ n ∧ n ≤ (w.call k).copies) ∧
        (w.call k).copies ≤ 5) ∧
      ((∀ k, (w.call k).copies ≤ 1) →
        (∀ k n r, .executed k n r ∈ w.log → ∃ n' r', .returned k n' r' ∈ w.log) →
        ExactlyOnce (serve X myPeers files cmd) s w.log w.store) := by
  have tracked := tracked_of_run run
  refine ⟨tracked.outcome.serial, ?_, ?_, ?_⟩
  · intro before k n r after whole
    have grounded := tracked.outcome.grounded
    have member : .returned k n r ∈ w.log := by
      rw [whole]
      exact List.mem_append_right _ List.mem_cons_self
    rw [whole] at grounded
    exact ⟨(tracked.returned k n r member).1, grounded.returned_between⟩
  · intro k
    refine ⟨nodup_executedCopies tracked.outcome.grounded k, ?_, tracked.limit k⟩
    intro n member
    obtain ⟨r, executed⟩ := mem_executedCopies.mp member
    exact tracked.executed k n r executed
  · intro once settled
    refine tracked.outcome.exactlyOnce ?_ settled
    intro k n r n' r' executed executed'
    obtain ⟨one, last⟩ := tracked.executed k n r executed
    obtain ⟨one', last'⟩ := tracked.executed k n' r' executed'
    have limit := once k
    omega

/-! ## Two clients -/

open Reference in
/-- One client adds an ad, the other removes it. -/
def addAndRemove : Bool → Bytes
  | false => bytes "db add json ad.json AUTH:" ++ alice
  | true => bytes "db rm " ++ hex ((reference true).sha256 (aliceEntry "1")) ++ bytes " AUTH:" ++ alice

open Reference in
abbrev twoClients (w : Clients Bool) (l : CallLabel Bool) : Option (Clients Bool) :=
  callStep (reference true) [] (fun _ => some (entry "1" "")) addAndRemove w l

open Reference in
/-- The result applies to a run in which the reply to a copy is lost. -/
theorem commands_at_least_once_lost : ∃ w, Run twoClients (fun _ _ => True) (.init ⟨[], []⟩)
      [.start false, .execute false 1, .loseReply false 1 (bytes "Added 1 entries"),
        .timeout false, .execute false 2, .deliver false 2 (bytes "Added 0 entries")] w ∧
    executedCopies w.log false = [1, 2] ∧ (w.call false).copies ≤ 5 := by
  let ls : List (CallLabel Bool) := [.start false, .execute false 1,
    .loseReply false 1 (bytes "Added 1 entries"), .timeout false, .execute false 2,
    .deliver false 2 (bytes "Added 0 entries")]
  have run : Run twoClients (fun _ _ => True) (.init ⟨[], []⟩) ls
    ((exec twoClients (.init ⟨[], []⟩) ls).get (by decide +kernel)) :=
      .computed _ fun _ _ _ => trivial
  exact ⟨_, run, by decide +kernel, ((commands_at_least_once run).2.2.1 false).2.2⟩

open Reference in
/-- A command takes effect although its client is told that there was no response; and a command
that is sent again takes effect again, after one that another client ran in between: neither
order of the two gives both of them the replies they got. -/
theorem not_exactly_once :
    (∃ ls w, Run twoClients (fun _ _ => True) (.init ⟨[], []⟩) ls w ∧
      (∀ k, (w.call k).pirate = none ∨ ∃ p, (w.call k).pirate = some p ∧ p.reply ≠ none) ∧
      ¬ ExactlyOnce (serve (reference true) [] (fun _ => some (entry "1" "")) addAndRemove)
        ⟨[], []⟩ w.log w.store) ∧
    ∃ ls w, Run twoClients (fun _ _ => True) (.init ⟨[], []⟩) ls w ∧
      (∀ k, ∃ n r, .returned k n r ∈ w.log) ∧
      ¬ ExactlyOnce (serve (reference true) [] (fun _ => some (entry "1" "")) addAndRemove)
        ⟨[], []⟩ w.log w.store := by
  constructor
  · let ls : List (CallLabel Bool) := [.start false, .execute false 1, .timeout false,
      .timeout false, .timeout false, .timeout false, .timeout false]
    let w := (exec twoClients (.init ⟨[], []⟩) ls).get (by decide +kernel)
    have run : Run twoClients (fun _ _ => True) (.init ⟨[], []⟩) ls w := .computed _ fun _ _ _ => trivial
    have told : (w.call false).pirate = some ⟨0, some (bytes "No response from server")⟩ := by
      decide +kernel
    have idle : (w.call true).pirate = none := by decide +kernel
    have log : w.log = [.sent false, .executed false 1 (bytes "Added 1 entries")] := by
      decide +kernel
    have stored : w.store.db ≠ [] := by decide +kernel
    clear_value w
    refine ⟨ls, w, run, ?_, ?_⟩
    · intro k
      cases k with
      | false => exact .inr ⟨_, told, by simp⟩
      | true => exact .inl idle
    · rintro ⟨order, -, members, -, replies, serially, -⟩
      -- nobody was told a reply, so nothing is to be executed
      have none_ : order = [] := by
        refine List.eq_nil_iff_forall_not_mem.mpr fun k member => ?_
        obtain ⟨n, r, returned⟩ := (members k).mp member
        rw [log] at returned
        simp at returned
      subst none_
      have unchanged := (Prod.mk.inj (Option.some.inj serially)).1
      rw [← unchanged] at stored
      exact stored rfl
  · let ls : List (CallLabel Bool) := [.start false, .execute false 1, .start true,
      .execute true 1, .deliver true 1 (bytes "Removed 1 entries"), .timeout false,
      .execute false 2, .deliver false 2 (bytes "Added 1 entries")]
    let w := (exec twoClients (.init ⟨[], []⟩) ls).get (by decide +kernel)
    have run : Run twoClients (fun _ _ => True) (.init ⟨[], []⟩) ls w := .computed _ fun _ _ _ => trivial
    have log : w.log = [.sent false, .executed false 1 (bytes "Added 1 entries"), .sent true,
        .executed true 1 (bytes "Removed 1 entries"), .returned true 1 (bytes "Removed 1 entries"),
        .executed false 2 (bytes "Added 1 entries"),
        .returned false 2 (bytes "Added 1 entries")] := by
      decide +kernel
    have stored : w.store.db ≠ [] := by decide +kernel
    clear_value w
    have added : .returned false 2 (bytes "Added 1 entries") ∈ w.log := by simp [log]
    have removed : .returned true 1 (bytes "Removed 1 entries") ∈ w.log := by simp [log]
    refine ⟨ls, w, run, ?_, ?_⟩
    · intro k
      cases k with
      | false => exact ⟨_, _, added⟩
      | true => exact ⟨_, _, removed⟩
    · rintro ⟨order, nodup, members, -, replies, serially, told⟩
      have perm : order.Perm [false, true] := by
        refine (List.perm_ext_iff_of_nodup nodup (by decide)).mpr fun k => ?_
        cases k with
        | false => simpa using (members false).mpr ⟨_, _, added⟩
        | true => simpa using (members true).mpr ⟨_, _, removed⟩
      have either : order = [false, true] ∨ order = [true, false] := by
        obtain ⟨a, b, rfl⟩ := List.length_eq_two.mp perm.length_eq
        cases a <;> cases b <;> simp at nodup ⊢
      rcases either with rfl | rfl
      · -- the ad would be gone
        have gone : (serial (serve (reference true) [] (fun _ => some (entry "1" ""))
            addAndRemove) ⟨[], []⟩ [false, true]).map (·.1.db) = some [] := by decide +kernel
        rw [serially] at gone
        exact stored (Option.some.inj gone)
      · -- there would have been nothing to remove
        have replied : (serial (serve (reference true) [] (fun _ => some (entry "1" ""))
            addAndRemove) ⟨[], []⟩ [true, false]).map (·.2) =
            some [bytes "no docs", bytes "Added 1 entries"] := by decide +kernel
        rw [serially] at replied
        cases replied
        obtain ⟨n, told⟩ := (List.forall₂_cons.mp told).1
        have other : bytes "no docs" ≠ bytes "Removed 1 entries" := by decide
        rw [log] at told
        simp [other] at told

end Piac
