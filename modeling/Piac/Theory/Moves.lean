/-
# Theory.Moves — what a program that may throw does to its state

A program is an `EStateM`: it ends with a value or an exception, and leaves a state
behind in both cases. `Moves R` says that the state left is always in the relation `R`
to the state before, `Ends I` that a program which starts in `I` does not throw. `R` is a
preorder, so each of the two needs one rule for each way to build a program.

* `Moves.bind`, `Moves.get_bind`, `Moves.forM`, `Moves.tryCatch`: the rules of `Moves`;
* `run_forM_iff`: a loop reaches its end exactly if no turn throws in the state that the turns
  before it leave (`attempts`);
* `Ends.bind`, `Ends.forM`: a program ends if its parts do and none of them leaves `I`.
-/
import Mathlib.Order.Defs.Unbundled

namespace Piac.Theory

set_option autoImplicit false

universe u

variable {State Error α β : Type u}

/-- The state that is left, with a value or with an exception. -/
def left : EStateM.Result Error State α → State
  | .ok _ s => s
  | .error _ s => s

/-- The relation holds between a state and what the program leaves of it. -/
def MovesFrom (R : State → State → Prop) (s : State) (p : EStateM Error State α) : Prop :=
  R s (left (p.run s))

def Moves (R : State → State → Prop) (p : EStateM Error State α) : Prop :=
  ∀ s, MovesFrom R s p

/-- A property stays when it was there. -/
def Keeps (I : State → Prop) (s t : State) : Prop := I s → I t

instance (I : State → Prop) : IsPreorder State (Keeps I) where
  refl _ := id
  trans _ _ _ first second := second ∘ first

def Ends (I : State → Prop) (p : EStateM Error State α) : Prop :=
  ∀ s, I s → ∃ a t, p.run s = .ok a t

/-! ## Runs -/

theorem run_bind_ok {p : EStateM Error State α} {f : α → EStateM Error State β} {s t : State}
    {a : α} (first : p.run s = .ok a t) : (p >>= f).run s = (f a).run t := by
  rw [EStateM.run_bind, first]

theorem run_bind_error {p : EStateM Error State α} {f : α → EStateM Error State β} {s t : State}
    {e : Error} (first : p.run s = .error e t) : (p >>= f).run s = .error e t := by
  rw [EStateM.run_bind, first]

@[simp] theorem run_throw (e : Error) (s : State) :
    (throw e : EStateM Error State α).run s = .error e s := rfl

@[simp] theorem run_get_bind (f : State → EStateM Error State β) (s : State) :
    ((get : EStateM Error State State) >>= f).run s = (f s).run s := rfl

/-- A loop of checks that leave the state throws if one of them does. -/
theorem run_forM_check {γ : Type u} {f : γ → EStateM Error State PUnit} {P : γ → Prop}
    [DecidablePred P] {e : Error}
    (each : ∀ x s, (f x).run s = if P x then .error e s else .ok PUnit.unit s) (xs : List γ)
    (s : State) :
    (xs.forM f).run s = if ∃ x ∈ xs, P x then .error e s else .ok PUnit.unit s := by
  induction xs with
  | nil => rfl
  | cons x xs ih =>
      show (f x >>= fun _ => xs.forM f).run s = _
      have first := each x s
      by_cases here : P x
      · rw [if_pos here] at first
        rw [run_bind_error first, if_pos ⟨x, List.mem_cons_self, here⟩]
      · rw [if_neg here] at first
        rw [run_bind_ok first, ih]
        simp only [List.mem_cons, exists_eq_or_imp, here, false_or]

theorem run_tryCatch (p : EStateM Error State α) (h : Error → EStateM Error State α) (s : State) :
    (tryCatch p h).run s = match p.run s with
      | .ok a t => .ok a t
      | .error e t => (h e).run t := by
  show EStateM.tryCatch p h s = _
  delta EStateM.tryCatch EStateM.run
  cases p s <;> rfl

/-! ## Loops whose turns may throw -/

section Attempts

variable {γ : Type u} {f : γ → EStateM Error State PUnit}

/-- What is left when each turn of a loop is run, an exception ending its own turn only. -/
def attempts (f : γ → EStateM Error State PUnit) : List γ → State → State
  | [], s => s
  | x :: xs, s => attempts f xs (left ((f x).run s))

theorem run_forM_cons (x : γ) (xs : List γ) (s : State) :
    ((x :: xs).forM f).run s = match (f x).run s with
      | .ok _ t => (xs.forM f).run t
      | .error e t => .error e t := by
  show (f x >>= fun _ => xs.forM f).run s = _
  rw [EStateM.run_bind]
  cases (f x).run s <;> rfl

/-- A loop whose turns do nothing. -/
theorem run_forM_skip {xs : List γ} (s : State) (skip : ∀ x ∈ xs, f x = pure PUnit.unit) :
    (xs.forM f).run s = .ok PUnit.unit s := by
  induction xs with
  | nil => rfl
  | cons x xs ih =>
      rw [run_forM_cons, skip x List.mem_cons_self]
      exact ih fun y member => skip y (List.mem_cons_of_mem _ member)

/-- A loop whose turns do nothing but one. -/
theorem run_forM_single {before after : List γ} {x : γ} (s : State)
    (skip : ∀ y, y ∈ before ∨ y ∈ after → f y = pure PUnit.unit) :
    ((before ++ x :: after).forM f).run s = (f x).run s := by
  induction before with
  | nil =>
      show ((x :: after).forM f).run s = _
      rw [run_forM_cons]
      cases (f x).run s with
      | ok a t => exact run_forM_skip t fun y member => skip y (.inr member)
      | error e t => rfl
  | cons y before ih =>
      show ((y :: (before ++ x :: after)).forM f).run s = _
      rw [run_forM_cons, skip y (.inl List.mem_cons_self)]
      exact ih fun z member => skip z (member.imp_left (List.mem_cons_of_mem _))

/-- A loop that reaches its end leaves what its turns leave. -/
theorem run_forM_ok {xs : List γ} {s t : State} (done : (xs.forM f).run s = .ok PUnit.unit t) :
    t = attempts f xs s := by
  induction xs generalizing s with
  | nil =>
      cases done
      rfl
  | cons x xs ih =>
      rw [run_forM_cons] at done
      cases first : (f x).run s with
      | ok a t' =>
          rw [first] at done
          show t = attempts f xs (left ((f x).run s))
          rw [first]
          exact ih done
      | error e t' =>
          rw [first] at done
          cases done

theorem forall_split_cons {P : List γ → γ → Prop} {x : γ} {xs : List γ} :
    (∀ before y after, x :: xs = before ++ y :: after → P before y) ↔
      P [] x ∧ ∀ before y after, xs = before ++ y :: after → P (x :: before) y := by
  constructor
  · exact fun all => ⟨all [] x xs rfl, fun before y after split =>
      all (x :: before) y after (congrArg (x :: ·) split)⟩
  · rintro ⟨first, rest⟩ before y after split
    rcases List.cons_eq_append_iff.mp split with ⟨rfl, same⟩ | ⟨before', rfl, same⟩
    · cases same
      exact first
    · exact rest before' y after same

/-- **A loop reaches its end exactly if** no turn throws in the state that the turns before it
leave. -/
theorem run_forM_iff {Fine : State → γ → Prop} {I : State → Prop}
    (fine : ∀ s x, I s → ((∃ t, (f x).run s = .ok PUnit.unit t) ↔ Fine s x))
    (keeps : ∀ s x, I s → I (left ((f x).run s))) {xs : List γ} {s : State} (start : I s) :
    (∃ t, (xs.forM f).run s = .ok PUnit.unit t) ↔
      ∀ before x after, xs = before ++ x :: after → Fine (attempts f before s) x := by
  induction xs generalizing s with
  | nil =>
      refine iff_of_true ⟨s, rfl⟩ fun before x after split => ?_
      simp at split
  | cons x xs ih =>
      have kept := keeps s x start
      have next := ih kept
      rw [forall_split_cons]
      show _ ↔ Fine s x ∧ ∀ before y after, xs = before ++ y :: after →
        Fine (attempts f before (left ((f x).run s))) y
      rw [← next, ← fine s x start, run_forM_cons]
      cases first : (f x).run s with
      | ok a t =>
          exact (and_iff_right ⟨t, rfl⟩).symm
      | error e t =>
          refine iff_of_false ?_ ?_
          · rintro ⟨t', done⟩
            cases done
          · rintro ⟨⟨t', done⟩, -⟩
            cases done

end Attempts

/-! ## Moves -/

namespace Moves

variable {R : State → State → Prop}

theorem mono {R' : State → State → Prop} {p : EStateM Error State α} (moves : Moves R p)
    (le : ∀ s t, R s t → R' s t) : Moves R' p := fun s => le s _ (moves s)

theorem modify {f : State → State} (step : ∀ s, R s (f s)) :
    Moves R (modify f : EStateM Error State PUnit) := step

/-- What stands behind `get` knows the state it starts from. -/
theorem get_bind {f : State → EStateM Error State β} (rest : ∀ s, MovesFrom R s (f s)) :
    Moves R ((get : EStateM Error State State) >>= f) := rest

variable [IsPreorder State R]

theorem pure (a : α) : Moves R (pure a : EStateM Error State α) := refl_of R

theorem throw (e : Error) : Moves R (throw e : EStateM Error State α) := refl_of R

/-- The rest of a program starts where its first part has ended. -/
theorem from_bind {s : State} {p : EStateM Error State α} {f : α → EStateM Error State β}
    (first : MovesFrom R s p)
    (rest : ∀ a t, p.run s = .ok a t → R s t → MovesFrom R t (f a)) :
    MovesFrom R s (p >>= f) := by
  unfold MovesFrom at *
  rw [EStateM.run_bind]
  cases ran : p.run s with
  | ok a t =>
      rw [ran] at first
      exact trans_of R first (rest a t ran first)
  | error e t =>
      rw [ran] at first
      exact first

theorem bind {p : EStateM Error State α} {f : α → EStateM Error State β} (first : Moves R p)
    (rest : ∀ a, Moves R (f a)) : Moves R (p >>= f) :=
  fun s => from_bind (first s) fun a t _ _ => rest a t

theorem forM {γ : Type u} {f : γ → EStateM Error State PUnit} {xs : List γ}
    (each : ∀ x ∈ xs, Moves R (f x)) : Moves R (xs.forM f) := by
  induction xs with
  | nil => exact pure PUnit.unit
  | cons x xs ih =>
      refine bind (each x List.mem_cons_self) fun _ => ?_
      exact ih fun y member => each y (List.mem_cons_of_mem _ member)

/-- The handler goes on from the state in which the exception left the body. -/
theorem tryCatch {p : EStateM Error State α} {h : Error → EStateM Error State α}
    (body : Moves R p) (handler : ∀ e, Moves R (h e)) : Moves R (tryCatch p h) := by
  intro s
  have before : R s (left (p.run s)) := body s
  show R s (left ((MonadExcept.tryCatch p h).run s))
  rw [run_tryCatch]
  cases done : p.run s with
  | ok a t =>
      rw [done] at before
      exact before
  | error e t =>
      rw [done] at before
      exact trans_of R before (handler e t)

end Moves

/-! ## Ends -/

namespace Ends

variable {I : State → Prop}

theorem pure (a : α) : Ends I (pure a : EStateM Error State α) := fun s _ => ⟨a, s, rfl⟩

theorem modify (f : State → State) : Ends I (modify f : EStateM Error State PUnit) :=
  fun s _ => ⟨_, f s, rfl⟩

theorem bind {p : EStateM Error State α} {f : α → EStateM Error State β} (first : Ends I p)
    (keeps : Moves (Keeps I) p) (rest : ∀ a, Ends I (f a)) : Ends I (p >>= f) := by
  intro s start
  obtain ⟨a, t, ran⟩ := first s start
  have kept : I s → I (left (p.run s)) := keeps s
  rw [ran] at kept
  rw [run_bind_ok ran]
  exact rest a t (kept start)

theorem forM {γ : Type u} {f : γ → EStateM Error State PUnit} {xs : List γ}
    (each : ∀ x, Ends I (f x)) (keeps : ∀ x, Moves (Keeps I) (f x)) :
    Ends I (xs.forM f) := by
  induction xs with
  | nil => exact pure PUnit.unit
  | cons x xs ih => exact bind (each x) (keeps x) fun _ => ih

/-- **A loop does for each** what its turn does, if no later turn undoes it. -/
theorem forM_each {γ : Type u} {f : γ → EStateM Error State PUnit} {P : γ → State → Prop}
    (ends : ∀ x, Ends I (f x)) (keeps : ∀ x, Moves (Keeps I) (f x))
    (does : ∀ x s, I s → P x (left ((f x).run s))) (stays : ∀ x y, Moves (Keeps (P y)) (f x))
    {xs : List γ} {s : State} (start : I s) : ∀ x ∈ xs, P x (left ((xs.forM f).run s)) := by
  induction xs generalizing s with
  | nil =>
      intro x member
      cases member
  | cons x xs ih =>
      obtain ⟨a, t, ran⟩ := ends x s start
      have kept : I s → I (left ((f x).run s)) := keeps x s
      have done := does x s start
      rw [ran] at kept done
      rw [run_forM_cons, ran]
      intro y member
      rcases List.mem_cons.mp member with rfl | later
      · exact Moves.forM (R := Keeps (P y)) (fun z _ => stays z y) t done
      · exact ih (kept start) y later

end Ends

end Piac.Theory
