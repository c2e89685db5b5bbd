/-
# Theory.Transition — runs of a labelled transition system

A system is a partial step function `State → Label → Option State`. A run takes a
list of labels in order; every step of it may also have to meet a condition on
the state before and the label (`allowed`), which is how an assumption on the
environment enters a result.

* `Run.history`, `Run.invariant`: what holds at the start and is kept by every
  allowed step holds at the end of every run.
* `not_diverges`: a rank in a well-founded order that every allowed step lowers
  rules out infinite runs.
* `diverges_of_cycle`: a non-empty run back to its own start is an infinite run.
* `exists_stuck`: where there is no infinite run, some run ends where no allowed step is
  enabled.
* `Run.simulated`: a run seen as one of another system, which may miss some steps.
* `Run.computed`, `Run.checked`: what `exec` computes is a run; `Run.exec`: a run is
  what `exec` computes.
-/
import Mathlib.Order.WellFounded
import Mathlib.Order.RelClasses
import Mathlib.Data.List.Basic

namespace Piac.Theory.Transition

set_option autoImplicit false

universe u v w

variable {State : Type u} {Label : Type v}

/-- `Run step allowed s ls t`: the labels `ls`, taken in order from `s`, end in
`t`, and each step is allowed in the state it is taken from. -/
inductive Run (step : State → Label → Option State) (allowed : State → Label → Prop)
    (s : State) : List Label → State → Prop where
  | nil : Run step allowed s [] s
  | snoc {ls : List Label} {t u : State} {l : Label} :
      Run step allowed s ls t → allowed t l → step t l = some u →
      Run step allowed s (ls ++ [l]) u

/-- Take the labels in order; `none` as soon as one is not enabled. -/
def exec (step : State → Label → Option State) : State → List Label → Option State
  | s, [] => some s
  | s, l :: ls => (step s l).bind fun t => exec step t ls

/-- An infinite sequence of allowed steps starts in `s`. -/
def Diverges (step : State → Label → Option State) (allowed : State → Label → Prop)
    (s : State) : Prop :=
  ∃ f : Nat → State, f 0 = s ∧
    ∀ n, ∃ l, allowed (f n) l ∧ step (f n) l = some (f (n + 1))

variable {step : State → Label → Option State} {allowed : State → Label → Prop}

/-! ## Finite runs -/

namespace Run

/-- An invariant may speak of the labels taken so far. -/
theorem history {Inv : List Label → State → Prop} {s t : State} {ls : List Label}
    (run : Run step allowed s ls t) (start : Inv [] s)
    (keeps : ∀ ls t l u, Inv ls t → allowed t l → step t l = some u → Inv (ls ++ [l]) u) :
    Inv ls t := by
  induction run with
  | nil => exact start
  | snoc _ ok stepped ih => exact keeps _ _ _ _ ih ok stepped

theorem invariant {Inv : State → Prop} {s t : State} {ls : List Label}
    (run : Run step allowed s ls t) (start : Inv s)
    (keeps : ∀ t l u, Inv t → allowed t l → step t l = some u → Inv u) : Inv t :=
  @history _ _ step allowed (fun _ => Inv) s t ls run start fun _ => keeps

theorem weaken {allowed' : State → Label → Prop} {s t : State} {ls : List Label}
    (run : Run step allowed s ls t) (le : ∀ s l, allowed s l → allowed' s l) :
    Run step allowed' s ls t := by
  induction run with
  | nil => exact .nil
  | snoc _ ok stepped ih => exact .snoc ih (le _ _ ok) stepped

theorem allowed_of_mem {s t : State} {ls : List Label} {l : Label}
    (run : Run step allowed s ls t) (member : l ∈ ls) : ∃ u, allowed u l := by
  induction run with
  | nil => cases member
  | snoc _ ok _ ih =>
      rcases List.mem_append.mp member with earlier | last
      · exact ih earlier
      · exact List.mem_singleton.mp last ▸ ⟨_, ok⟩

theorem cons {s t u : State} {l : Label} {ls : List Label} (ok : allowed s l)
    (stepped : step s l = some t) (run : Run step allowed t ls u) :
    Run step allowed s (l :: ls) u := by
  induction run with
  | nil => exact .snoc .nil ok stepped
  | snoc _ ok' stepped' ih => exact .snoc ih ok' stepped'

theorem trans {s t u : State} {ls ms : List Label} (first : Run step allowed s ls t)
    (second : Run step allowed t ms u) : Run step allowed s (ls ++ ms) u := by
  induction second with
  | nil => simpa using first
  | snoc _ ok stepped ih => simpa [List.append_assoc] using ih.snoc ok stepped

/-- A computed run is a run of the system whose steps are all allowed. -/
theorem of_exec {s t : State} {ls : List Label} (done : exec step s ls = some t)
    (ok : ∀ s, ∀ l ∈ ls, allowed s l) : Run step allowed s ls t := by
  induction ls generalizing s with
  | nil => cases done; exact .nil
  | cons l ls ih =>
      simp only [exec, Option.bind_eq_some_iff] at done
      obtain ⟨m, stepped, rest⟩ := done
      exact cons (ok s l (by simp)) stepped (ih rest fun s l h => ok s l (by simp [h]))

theorem computed {s : State} {ls : List Label} (runs : (exec step s ls).isSome = true)
    (ok : ∀ s, ∀ l ∈ ls, allowed s l) : Run step allowed s ls ((exec step s ls).get runs) :=
  of_exec (Option.some_get runs).symm ok

/-- What holds of the labels of a run, wherever they are taken, is one more condition on it. -/
theorem both {allowed' : State → Label → Prop} {s t : State} {ls : List Label}
    (run : Run step allowed s ls t) (ok : ∀ s, ∀ l ∈ ls, allowed' s l) :
    Run step (fun s l => allowed' s l ∧ allowed s l) s ls t := by
  induction run with
  | nil => exact .nil
  | @snoc ls t u l _ allowed stepped ih =>
      exact .snoc (ih fun s l member => ok s l (List.mem_append_left _ member))
        ⟨ok t l (List.mem_append_right _ (List.mem_singleton_self l)), allowed⟩ stepped

/-- **Another system sees a run as a run of its own**, if it sees each step as one of its own or
not at all. -/
theorem simulated {State' : Type u} {Label' : Type v} {step' : State' → Label' → Option State'}
    {allowed' : State' → Label' → Prop} {Inv : State → Prop} {s t : State} {ls : List Label}
    (view : State → State') (seen : Label → Option Label') (run : Run step allowed s ls t)
    (start : Inv s)
    (keeps : ∀ t l u, Inv t → allowed t l → step t l = some u → Inv u ∧
      match seen l with
      | some l' => allowed' (view t) l' ∧ step' (view t) l' = some (view u)
      | none => view u = view t) :
    Inv t ∧ Run step' allowed' (view s) (ls.filterMap seen) (view t) := by
  induction run with
  | nil => exact ⟨start, .nil⟩
  | @snoc ls t u l _ ok stepped ih =>
      obtain ⟨inv, earlier⟩ := ih
      obtain ⟨inv', step⟩ := keeps t l u inv ok stepped
      refine ⟨inv', ?_⟩
      rw [List.filterMap_append]
      cases here : seen l with
      | some l' =>
          rw [here] at step
          rw [List.filterMap_cons_some here]
          exact .snoc earlier step.1 step.2
      | none =>
          rw [here] at step
          rw [List.filterMap_cons_none here, List.filterMap_nil, List.append_nil, step]
          exact earlier

end Run

/-- The system in which a step that is not allowed is not enabled. -/
def guarded (step : State → Label → Option State) (allowed : State → Label → Prop)
    [∀ s l, Decidable (allowed s l)] (s : State) (l : Label) : Option State :=
  if allowed s l then step s l else none

/-- A computed run each step of which was checked. -/
theorem Run.checked [∀ s l, Decidable (allowed s l)] {s : State} {ls : List Label}
    (runs : (exec (guarded step allowed) s ls).isSome = true) :
    Run step allowed s ls ((exec (guarded step allowed) s ls).get runs) := by
  have run : Run (guarded step allowed) (fun _ _ => True) s ls _ :=
    .computed runs fun _ _ _ => trivial
  generalize (exec (guarded step allowed) s ls).get runs = t at run
  clear runs
  induction run with
  | nil => exact .nil
  | snoc _ _ stepped ih =>
      obtain ⟨ok, stepped⟩ := Option.ite_none_right_eq_some.mp stepped
      exact .snoc ih ok stepped

theorem exec_append (s : State) (ls ms : List Label) :
    exec step s (ls ++ ms) = (exec step s ls).bind fun t => exec step t ms := by
  induction ls generalizing s with
  | nil => rfl
  | cons l ls ih =>
      simp only [List.cons_append, exec, Option.bind_assoc]
      exact congrArg _ (funext fun t => ih t)

theorem Run.exec {s t : State} {ls : List Label} (run : Run step allowed s ls t) :
    exec step s ls = some t := by
  induction run with
  | nil => rfl
  | snoc _ _ stepped ih =>
      rw [exec_append, ih, Option.bind_some]
      simp only [Transition.exec, stepped, Option.bind_some]

/-! ## Infinite runs -/

/-- A rank that every allowed step lowers, while an invariant is kept, rules out
infinite runs. -/
theorem not_diverges {Rank : Type w} {r : Rank → Rank → Prop} (wf : WellFounded r)
    {Inv : State → Prop} (rank : State → Rank) {s : State} (start : Inv s)
    (lowers : ∀ t l u, Inv t → allowed t l → step t l = some u →
      Inv u ∧ r (rank u) (rank t)) :
    ¬ Diverges step allowed s := by
  rintro ⟨f, rfl, steps⟩
  have inv : ∀ n, Inv (f n) := by
    intro n
    induction n with
    | zero => exact start
    | succ n ih =>
        obtain ⟨l, ok, stepped⟩ := steps n
        exact (lowers _ _ _ ih ok stepped).1
  have down : ∀ n, r (rank (f (n + 1))) (rank (f n)) := by
    intro n
    obtain ⟨l, ok, stepped⟩ := steps n
    exact (lowers _ _ _ (inv n) ok stepped).2
  -- the ranks along `f` have a minimal element, and the next one is below it
  obtain ⟨_, ⟨n, rfl⟩, least⟩ :=
    wf.has_min (Set.range fun n => rank (f n)) ⟨_, 0, rfl⟩
  exact least _ ⟨n + 1, rfl⟩ (down n)

/-- No allowed step is enabled. -/
def Stuck (step : State → Label → Option State) (allowed : State → Label → Prop)
    (s : State) : Prop :=
  ∀ l, allowed s l → step s l = none

/-- What cannot go on for ever comes to a rest. -/
theorem exists_stuck {s : State} (finite : ¬ Diverges step allowed s) :
    ∃ ls t, Run step allowed s ls t ∧ Stuck step allowed t := by
  by_contra goesOn
  -- otherwise every state that is reached has a next one
  have next : ∀ t : {t // ∃ ls, Run step allowed s ls t}, ∃ u : {t // ∃ ls, Run step allowed s ls t},
      ∃ l, allowed t.1 l ∧ step t.1 l = some u.1 := by
    rintro ⟨t, ls, run⟩
    by_contra last
    refine goesOn ⟨ls, t, run, fun l ok => ?_⟩
    by_contra enabled
    obtain ⟨u, stepped⟩ := Option.ne_none_iff_exists'.mp enabled
    exact last ⟨⟨u, ls ++ [l], run.snoc ok stepped⟩, l, ok, stepped⟩
  choose after steps using next
  refine finite ⟨fun n => (after^[n] ⟨s, [], .nil⟩).1, rfl, fun n => ?_⟩
  show ∃ l, allowed (after^[n] _).1 l ∧ step (after^[n] _).1 l = some (after^[n + 1] _).1
  rw [Function.iterate_succ_apply']
  exact steps _

/-- Going round a cycle for ever is an infinite run. -/
theorem diverges_of_cycle {s : State} {l : Label} {ls : List Label}
    (cycle : exec step s (l :: ls) = some s) (ok : ∀ s, ∀ m ∈ l :: ls, allowed s m) :
    Diverges step allowed s := by
  -- after `n` steps the run is `n % len` labels into the cycle
  have mid : ∀ k, ∃ t, exec step s ((l :: ls).take k) = some t := by
    intro k
    have split := @exec_append _ _ step s ((l :: ls).take k) ((l :: ls).drop k)
    rw [List.take_append_drop, cycle] at split
    exact (Option.bind_eq_some_iff.mp split.symm).imp fun _ h => h.1
  choose at_ reached using mid
  have next : ∀ k, (h : k < (l :: ls).length) →
      step (at_ k) (l :: ls)[k] = some (at_ (k + 1)) := by
    intro k h
    have split := reached (k + 1)
    rw [List.take_add_one, exec_append, reached k] at split
    rw [List.getElem?_eq_getElem h] at split
    simpa [exec] using split
  have wrap : at_ (l :: ls).length = at_ 0 := by
    have full := reached (l :: ls).length
    rw [List.take_length, cycle] at full
    have none_ := reached 0
    simp only [List.take_zero, exec] at none_
    exact (Option.some.inj full).symm.trans (Option.some.inj none_)
  have start : at_ 0 = s := by
    have none_ := reached 0
    simpa [exec] using none_.symm
  refine ⟨fun n => at_ (n % (l :: ls).length), by simpa using start, fun n => ?_⟩
  have lt := Nat.mod_lt n (show 0 < (l :: ls).length by simp)
  refine ⟨(l :: ls)[n % (l :: ls).length], ok _ _ (List.getElem_mem lt), ?_⟩
  rw [next _ lt]
  show some _ = some (at_ ((n + 1) % (l :: ls).length))
  -- the next position is one further, or back at the start of the cycle
  have position : (n + 1) % (l :: ls).length = (n % (l :: ls).length + 1) % (l :: ls).length :=
    (Nat.mod_add_mod n _ 1).symm
  by_cases last : n % (l :: ls).length + 1 = (l :: ls).length
  · rw [last, Nat.mod_self] at position
    rw [position, last, wrap]
  · rw [Nat.mod_eq_of_lt (Nat.lt_of_le_of_ne lt last)] at position
    rw [position]

end Piac.Theory.Transition
