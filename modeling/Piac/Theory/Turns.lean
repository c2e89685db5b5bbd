/-
# Theory.Turns — two inputs that are taken in turns

A system takes two kinds of input. While the second kind waits it takes only so many of the
first (`left`) before it serves the second, and each time it does it may take one more
(`InTurns`).

* `count_le`: so as long as the second kind waits, the first is taken no more often than the
  second is served, and what was left at the start.
* `overtaken_le`: if what waits are messages in a queue (`Served`), the message at place `k` is
  in it until `k` before it have been served, and no more than `k` inputs of the first kind, and
  those that were left, are taken until its own turn.
-/
import Piac.Theory.Transition
import Mathlib.Data.List.Count

namespace Piac.Theory.Turns

set_option autoImplicit false

open Piac.Theory.Transition

universe u v w

variable {State : Type u} {Label : Type v} {step : State → Label → Option State}
variable {waits : State → Prop} {competes serves : Label → Bool} {left : State → Nat}

/-- What may still be taken of the first kind before the second is served, if that waits. -/
structure InTurns (step : State → Label → Option State) (waits : State → Prop)
    (competes serves : Label → Bool) (left : State → Nat) : Prop where
  takes : ∀ {s l t}, step s l = some t → waits s → competes l = true → left t + 1 ≤ left s
  turn : ∀ {s l t}, step s l = some t → waits s → serves l = true → left t ≤ left s + 1
  other : ∀ {s l t}, step s l = some t → waits s → competes l = false → serves l = false →
    left t ≤ left s

/-- **While the second kind waits, the first is taken no more often** than the second is served, and
what was left. -/
theorem InTurns.count_le (turns : InTurns step waits competes serves left) {s t : State}
    {ls : List Label} (run : Run step (fun s _ => waits s) s ls t) :
    ls.countP competes + left t ≤ left s + ls.countP serves := by
  induction run with
  | nil => simp
  | @snoc ls t u l _ waiting stepped ih =>
      have last (p : Label → Bool) :
          (ls ++ [l]).countP p = ls.countP p + if p l = true then 1 else 0 := by
        rw [List.countP_append, List.countP_singleton]
      rw [last, last]
      by_cases takes : competes l = true
      · have fewer := turns.takes stepped waiting takes
        rw [if_pos takes]
        split <;> omega
      · rw [if_neg takes]
        by_cases served : serves l = true
        · have more := turns.turn stepped waiting served
          rw [if_pos served]
          omega
        · have same := turns.other stepped waiting (by simpa using takes) (by simpa using served)
          rw [if_neg served]
          omega

/-! ## A queue -/

variable {Msg : Type w} {queue : State → List Msg}

/-- Messages are served from the front, and come at the back. -/
structure Served (step : State → Label → Option State) (queue : State → List Msg)
    (serves : Label → Bool) : Prop where
  front : ∀ {s l t}, step s l = some t → serves l = true → ∃ msg, queue s = msg :: queue t
  back : ∀ {s l t}, step s l = some t → serves l = false → ∃ more, queue t = queue s ++ more

/-- A message that is not served yet is so much nearer to the front. -/
theorem Served.place (served : Served step queue serves) {allowed : State → Label → Prop}
    {s t : State} {ls : List Label} (run : Run step allowed s ls t) {k : Nat} {msg : Msg}
    (here : (queue s)[k]? = some msg) (before : ls.countP serves ≤ k) :
    (queue t)[k - ls.countP serves]? = some msg := by
  induction run with
  | nil => exact here
  | @snoc ls t u l _ _ stepped ih =>
      rw [List.countP_append, List.countP_singleton] at before ⊢
      have place := ih (by omega)
      by_cases serves_ : serves l = true
      · rw [if_pos serves_] at before ⊢
        obtain ⟨front, shape⟩ := served.front stepped serves_
        rw [shape, show k - ls.countP serves = k - (ls.countP serves + 1) + 1 by omega,
          List.getElem?_cons_succ] at place
        exact place
      · rw [if_neg serves_, Nat.add_zero]
        obtain ⟨more, shape⟩ := served.back stepped (by simpa using serves_)
        have inside := (List.getElem?_eq_some_iff.mp place).1
        rw [shape, List.getElem?_append_left inside]
        exact place

/-- **A message is overtaken by few inputs**: until the one at place `k` is served, it stays in
the queue, and at most `k` inputs of the first kind, and what was left, are taken. -/
theorem overtaken_le (served : Served step queue serves)
    (turns : InTurns step (fun s => queue s ≠ []) competes serves left)
    {allowed : State → Label → Prop} {s t : State} {ls : List Label}
    (run : Run step allowed s ls t) {k : Nat} {msg : Msg} (here : (queue s)[k]? = some msg)
    (before : ls.countP serves ≤ k) :
    (queue t)[k - ls.countP serves]? = some msg ∧ ls.countP competes ≤ k + left s := by
  refine ⟨served.place run here before, ?_⟩
  have waiting : Run step (fun s _ => queue s ≠ []) s ls t := by
    clear turns
    induction run with
    | nil => exact .nil
    | @snoc ls t u l earlier _ stepped ih =>
        rw [List.countP_append] at before
        refine .snoc (ih (by omega)) (fun empty => ?_) stepped
        have place := served.place earlier here (by omega)
        rw [empty] at place
        cases place
  have few := turns.count_le waiting
  omega

end Piac.Theory.Turns
