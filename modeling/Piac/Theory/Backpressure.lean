/-
# Theory.Backpressure — one sender and bounded queues

A sender has messages to put into the queues of their receivers, one after the other
(`pending`). A queue takes a message while it holds fewer than `bound`, and the
messages behind one that waits wait with it, whoever they are for. A receiver takes
messages out of its queue, unless it is `dead`.

* `move_keeps`: a move keeps the queues within their bound, and does not change what a
  dead receiver is owed (`owed`): what is in its queue and what is pending for it.
* `empties_iff`: the sender gets rid of everything exactly if no dead receiver is owed
  more than its queue can hold (`Overdue`).
-/
import Piac.Theory.Transition
import Mathlib.Logic.Function.Basic

namespace Piac.Theory.Backpressure

set_option autoImplicit false

open Piac.Theory.Transition

universe u v

variable {Addr : Type u} {Msg : Type v}

structure Queues (Addr : Type u) (Msg : Type v) where
  /-- The number of messages in each queue. -/
  load : Addr → Nat
  pending : List (Addr × Msg)

namespace Queues

/-- More messages are to be sent. -/
def push (q : Queues Addr Msg) (msgs : List (Addr × Msg)) : Queues Addr Msg :=
  { q with pending := q.pending ++ msgs }

/-- No queue is overfull. -/
def Within (bound : Nat) (q : Queues Addr Msg) : Prop := ∀ addr, q.load addr ≤ bound

variable [DecidableEq Addr]

/-- The messages for that receiver which are in its queue or still to be sent. -/
def owed (q : Queues Addr Msg) (addr : Addr) : Nat :=
  q.load addr + (q.pending.map Prod.fst).count addr

/-- A dead receiver has more coming than its queue can hold. -/
def Overdue (bound : Nat) (dead : Addr → Bool) (q : Queues Addr Msg) : Prop :=
  ∃ addr, dead addr = true ∧ bound < q.owed addr

omit [DecidableEq Addr] in
theorem Within.push {bound : Nat} {q : Queues Addr Msg} (within : q.Within bound)
    (msgs : List (Addr × Msg)) : (q.push msgs).Within bound := within

theorem owed_push (q : Queues Addr Msg) (msgs : List (Addr × Msg)) (addr : Addr) :
    (q.push msgs).owed addr = q.owed addr + (msgs.map Prod.fst).count addr := by
  simp only [owed, push, List.map_append, List.count_append]
  omega

theorem owed_of_done {q : Queues Addr Msg} (done : q.pending = []) (addr : Addr) :
    q.owed addr = q.load addr := by
  simp [owed, done]

/-- Something waits. -/
theorem Overdue.pending {bound : Nat} {dead : Addr → Bool} {q : Queues Addr Msg}
    (overdue : q.Overdue bound dead) (within : q.Within bound) : q.pending ≠ [] := by
  intro done
  obtain ⟨addr, -, beyond⟩ := overdue
  have room := within addr
  rw [owed_of_done done] at beyond
  omega

theorem not_overdue_of_done {bound : Nat} {dead : Addr → Bool} {q : Queues Addr Msg}
    (within : q.Within bound) (done : q.pending = []) : ¬ q.Overdue bound dead :=
  fun overdue => overdue.pending within done

end Queues

inductive Move (Addr : Type u) where
  | send
  /-- The receiver takes a message. -/
  | drain (addr : Addr)

variable [DecidableEq Addr]

def move (bound : Nat) (dead : Addr → Bool) (q : Queues Addr Msg) :
    Move Addr → Option (Queues Addr Msg)
  | .send =>
      match q.pending with
      | [] => none
      | (addr, _) :: rest =>
          if q.load addr < bound then
            some ⟨Function.update q.load addr (q.load addr + 1), rest⟩
          else none
  | .drain addr =>
      if dead addr = false ∧ 0 < q.load addr then
        some { q with load := Function.update q.load addr (q.load addr - 1) }
      else none

/-- Some moves get everything sent. -/
def Empties (bound : Nat) (dead : Addr → Bool) (q : Queues Addr Msg) : Prop :=
  ∃ ms q', exec (move bound dead) q ms = some q' ∧ q'.pending = []

variable {bound : Nat} {dead : Addr → Bool} {q q' : Queues Addr Msg}

/-! ## One move -/

theorem send_cases (moved : move bound dead q .send = some q') :
    ∃ addr msg, q.pending = (addr, msg) :: q'.pending ∧ q.load addr < bound ∧
      q'.load = Function.update q.load addr (q.load addr + 1) := by
  cases pending : q.pending with
  | nil => simp [move, pending] at moved
  | cons head rest =>
      simp only [move, pending] at moved
      obtain ⟨less, same⟩ := Option.ite_none_right_eq_some.mp moved
      cases same
      exact ⟨head.1, head.2, rfl, less, rfl⟩

theorem drain_cases {addr : Addr} (moved : move bound dead q (.drain addr) = some q') :
    dead addr = false ∧ 0 < q.load addr ∧ q'.pending = q.pending ∧
      q'.load = Function.update q.load addr (q.load addr - 1) := by
  obtain ⟨⟨alive, some_⟩, same⟩ := Option.ite_none_right_eq_some.mp moved
  cases same
  exact ⟨alive, some_, rfl, rfl⟩

theorem within_update {bound n : Nat} {load : Addr → Nat} {addr : Addr}
    (within : ∀ a, load a ≤ bound) (fits : n ≤ bound) (a : Addr) :
    Function.update load addr n a ≤ bound := by
  by_cases same : a = addr
  · subst same
    rw [Function.update_self]
    exact fits
  · rw [Function.update_of_ne same]
    exact within a

/-- A send only shifts what is owed from one place to the other. -/
theorem owed_send (moved : move bound dead q .send = some q') (addr : Addr) :
    q'.owed addr = q.owed addr := by
  obtain ⟨addr', msg, pending, -, load⟩ := send_cases moved
  unfold Queues.owed
  rw [pending, load, List.map_cons, List.count_cons]
  by_cases same : addr = addr'
  · subst same
    simp only [Function.update_self, beq_self_eq_true, if_true]
    omega
  · simp [Function.update_of_ne same, Ne.symm same]

/-- A move keeps the queues within their bound, and what the dead are owed. -/
theorem move_keeps {m : Move Addr} (within : q.Within bound)
    (moved : move bound dead q m = some q') :
    q'.Within bound ∧ ∀ addr, dead addr = true → q'.owed addr = q.owed addr := by
  cases m with
  | send =>
      refine ⟨?_, fun addr _ => owed_send moved addr⟩
      obtain ⟨addr, msg, -, less, load⟩ := send_cases moved
      intro a
      rw [load]
      exact within_update within less a
  | drain addr =>
      obtain ⟨alive, -, pending, load⟩ := drain_cases moved
      refine ⟨fun a => ?_, fun a isDead => ?_⟩
      · rw [load]
        have before := within addr
        exact within_update within (by omega) a
      · have other : a ≠ addr := by
          rintro rfl
          rw [isDead] at alive
          cases alive
        rw [Queues.owed, Queues.owed, pending, load, Function.update_of_ne other]

/-- So a move does not change whether a dead receiver is owed too much. -/
theorem overdue_move {m : Move Addr} (within : q.Within bound)
    (moved : move bound dead q m = some q') : q'.Overdue bound dead ↔ q.Overdue bound dead := by
  obtain ⟨-, same⟩ := move_keeps within moved
  refine exists_congr fun addr => and_congr_right fun isDead => ?_
  rw [same addr isDead]

/-! ## Getting everything sent -/

theorem exec_keeps {ms : List (Move Addr)} (within : q.Within bound)
    (moved : exec (move bound dead) q ms = some q') :
    q'.Within bound ∧ (q'.Overdue bound dead ↔ q.Overdue bound dead) := by
  induction ms generalizing q with
  | nil =>
      cases moved
      exact ⟨within, Iff.rfl⟩
  | cons m ms ih =>
      simp only [exec, Option.bind_eq_some_iff] at moved
      obtain ⟨mid, first, later⟩ := moved
      obtain ⟨within', same⟩ := ih (move_keeps within first).1 later
      exact ⟨within', same.trans (overdue_move within first)⟩

theorem Empties.cons {m : Move Addr} (moved : move bound dead q m = some q')
    (empties : Empties bound dead q') : Empties bound dead q := by
  obtain ⟨ms, last, rest, done⟩ := empties
  refine ⟨m :: ms, last, ?_, done⟩
  simp only [exec, moved, Option.bind_some]
  exact rest

/-- **Everything can be sent exactly if the queues of the dead have room for what is theirs.** -/
theorem empties_iff (pos : 1 ≤ bound) (within : q.Within bound) :
    Empties bound dead q ↔ ¬ q.Overdue bound dead := by
  constructor
  · rintro ⟨ms, last, moved, done⟩ overdue
    obtain ⟨within', same⟩ := exec_keeps within moved
    exact Queues.not_overdue_of_done within' done (same.mpr overdue)
  · intro due
    -- one message after the other, each after its receiver has made room
    obtain ⟨load, pending⟩ := q
    induction pending generalizing load with
    | nil => exact ⟨[], _, rfl, rfl⟩
    | cons head rest ih =>
        obtain ⟨addr, msg⟩ := head
        have sends : ∀ load : Addr → Nat, Queues.Within bound ⟨load, (addr, msg) :: rest⟩ →
            ¬ Queues.Overdue bound dead ⟨load, (addr, msg) :: rest⟩ → load addr < bound →
            Empties bound dead ⟨load, (addr, msg) :: rest⟩ := by
          intro load within due less
          have sent : move bound dead ⟨load, (addr, msg) :: rest⟩ .send =
              some ⟨Function.update load addr (load addr + 1), rest⟩ := if_pos less
          refine .cons sent (ih _ (move_keeps within sent).1 ?_)
          rwa [overdue_move within sent]
        by_cases less : load addr < bound
        · exact sends load within due less
        · have full : load addr = bound := Nat.le_antisymm (within addr) (Nat.not_lt.mp less)
          have alive : dead addr = false := by
            by_contra isDead
            refine due ⟨addr, by simpa using isDead, ?_⟩
            simp only [Queues.owed, full, List.map_cons, List.count_cons_self]
            omega
          have drained : move bound dead ⟨load, (addr, msg) :: rest⟩ (.drain addr) =
              some ⟨Function.update load addr (load addr - 1), (addr, msg) :: rest⟩ :=
            if_pos ⟨alive, by show 0 < load addr; omega⟩
          refine .cons drained (sends _ (move_keeps within drained).1 ?_ ?_)
          · rwa [overdue_move within drained]
          · rw [Function.update_self]
            omega

end Piac.Theory.Backpressure
