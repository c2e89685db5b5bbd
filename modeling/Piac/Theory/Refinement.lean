/-
# Theory.Refinement — programs with state that do what a computation does

A program over a state may throw, and a computation without state returns a result or
an error. `Refines` relates a run of the one to the other: both fail with the same
error (`raise` names it among those of the program), or both return and `post` relates
the two results and the state the program ends in.

* `Refines.bind`: programs and computations side by side.
* `Refines.after`, `Refines.before`: steps of the program alone, such as
  `Refines.after_get` and `Refines.after_modify`.
* `Refines.caught`: a handler that passes the errors of the computation on.
-/
import Piac.Theory.Moves

namespace Piac.Theory.Refinement

set_option autoImplicit false

variable {ε ε' σ α β γ δ : Type}

inductive Refines (raise : ε' → ε) (post : β → α → σ → Prop) :
    EStateM.Result ε σ α → Except ε' β → Prop where
  | ok {a : α} {s : σ} {b : β} : post b a s → Refines raise post (.ok a s) (.ok b)
  | error (e : ε') (s : σ) : Refines raise post (.error (raise e) s) (.error e)

namespace Refines

variable {raise : ε' → ε} {post post' : β → α → σ → Prop} {s s' : σ} {x : EStateM ε σ α}
  {c : Except ε' β}

theorem mono (refines : Refines raise post (x.run s) c)
    (weaker : ∀ b a s', post b a s' → post' b a s') : Refines raise post' (x.run s) c := by
  generalize x.run s = result at refines ⊢
  cases refines with
  | ok related => exact .ok (weaker _ _ _ related)
  | error e s' => exact .error e s'

theorem bind {k : α → EStateM ε σ γ} {g : β → Except ε' δ} {post' : δ → γ → σ → Prop}
    (first : Refines raise post (x.run s) c)
    (rest : ∀ b a s', post b a s' → Refines raise post' ((k a).run s') (g b)) :
    Refines raise post' ((x >>= k).run s) (c >>= g) := by
  rw [EStateM.run_bind]
  generalize x.run s = result at first ⊢
  cases first with
  | ok related => exact rest _ _ _ related
  | error e s' => exact .error e s'

/-- The program takes a step that the computation does not have. -/
theorem after {a : α} {k : α → EStateM ε σ γ} {c : Except ε' δ} {post : δ → γ → σ → Prop}
    (ran : x.run s = .ok a s') (rest : Refines raise post ((k a).run s') c) :
    Refines raise post ((x >>= k).run s) c := by
  rw [EStateM.run_bind, ran]
  exact rest

theorem after_get {k : σ → EStateM ε σ γ} {c : Except ε' δ} {post : δ → γ → σ → Prop}
    (rest : Refines raise post ((k s).run s) c) :
    Refines raise post ((get >>= k : EStateM ε σ γ).run s) c := rest

theorem after_modify {f : σ → σ} {k : PUnit → EStateM ε σ γ} {c : Except ε' δ}
    {post : δ → γ → σ → Prop} (rest : Refines raise post ((k ⟨⟩).run (f s)) c) :
    Refines raise post ((modify f >>= k : EStateM ε σ γ).run s) c := rest

/-- The program goes on after the computation is done. -/
theorem before {k : α → EStateM ε σ γ} {post' : β → γ → σ → Prop}
    (first : Refines raise post (x.run s) c)
    (rest : ∀ b a s', post b a s' → ∃ a' s'', (k a).run s' = .ok a' s'' ∧ post' b a' s'') :
    Refines raise post' ((x >>= k).run s) c := by
  rw [EStateM.run_bind]
  generalize x.run s = result at first ⊢
  cases first with
  | @ok a s' b related =>
      obtain ⟨a', s'', ran, related'⟩ := rest b a s' related
      show Refines raise post' ((k a).run s') _
      rw [ran]
      exact .ok related'
  | error e s' => exact .error e s'

/-- The computation changes its result after the program is done. -/
theorem map {f : β → δ} {post' : δ → α → σ → Prop} (first : Refines raise post (x.run s) c)
    (rest : ∀ b a s', post b a s' → post' (f b) a s') :
    Refines raise post' (x.run s) (c >>= fun b => pure (f b)) := by
  generalize x.run s = result at first ⊢
  cases first with
  | ok related => exact .ok (rest _ _ _ related)
  | error e s' => exact .error e s'

/-- The errors of the computation get past the handler. -/
theorem caught {handler : ε → EStateM ε σ α} (body : Refines raise post (x.run s) c)
    (passes : ∀ e s', (handler (raise e)).run s' = .error (raise e) s') :
    Refines raise post ((tryCatch x handler).run s) c := by
  rw [run_tryCatch]
  generalize x.run s = result at body ⊢
  cases body with
  | ok related => exact .ok related
  | error e s' =>
      simp only [passes]
      exact .error e s'

/-- Where the computation returns, so does the program. -/
theorem returns {b : β} (refines : Refines raise post (x.run s) (.ok b)) :
    ∃ a s', x.run s = .ok a s' ∧ post b a s' := by
  generalize x.run s = result at refines ⊢
  cases refines with
  | ok related => exact ⟨_, _, rfl, related⟩

theorem fails {e : ε'} (refines : Refines raise post (x.run s) (.error e)) :
    ∃ s', x.run s = .error (raise e) s' := by
  generalize x.run s = result at refines ⊢
  cases refines with
  | error e s' => exact ⟨s', rfl⟩

end Refines

end Piac.Theory.Refinement
