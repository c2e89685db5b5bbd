/-
# Theory.Calls — histories of remote calls

A call is sent by its client, perhaps several times; a server executes copies of it,
and one of the replies is returned to the client. A history lists these events as
they happen, and `Grounded` says that each has its cause before it: a copy is executed
once, after the call was first sent, and what is returned is the reply of an execution.

* `AtLeastOnce`: a grounded history, and a state that is that of the executions one
  after the other.
* `ExactlyOnce`: the state, and the replies, are those of a serial order of the calls
  that returned, each taken once, in which no call that had returned when another was
  sent comes after it.
* `AtLeastOnce.exactlyOnce`: the first is the second where no call is executed twice
  and each one that is executed returns.
-/
import Mathlib.Data.List.Induction
import Mathlib.Data.List.Forall2
import Mathlib.Data.List.Nodup

namespace Piac.Theory.Calls

set_option autoImplicit false

universe u v w

variable {Call : Type u} {Reply : Type v} {State : Type w}

inductive Entry (Call : Type u) (Reply : Type v) where
  | sent (k : Call)
  | executed (k : Call) (copy : Nat) (reply : Reply)
  | returned (k : Call) (copy : Nat) (reply : Reply)
  deriving DecidableEq

abbrev History (Call : Type u) (Reply : Type v) := List (Entry Call Reply)

/-- The cause of an event is in the history. -/
def Grounds (h : History Call Reply) : Entry Call Reply → Prop
  | .sent k => .sent k ∉ h
  | .executed k n _ => .sent k ∈ h ∧ ∀ r, .executed k n r ∉ h
  | .returned k n r => .executed k n r ∈ h ∧ ∀ n' r', .returned k n' r' ∉ h

/-- Each event has its cause before it. -/
inductive Grounded : History Call Reply → Prop where
  | nil : Grounded []
  | snoc {h : History Call Reply} {e : Entry Call Reply} :
      Grounded h → Grounds h e → Grounded (h ++ [e])

namespace Grounded

theorem of_append {h l : History Call Reply} (grounded : Grounded (h ++ l)) : Grounded h := by
  induction l using List.reverseRecOn with
  | nil => simpa using grounded
  | append_singleton l e ih =>
      rw [← List.append_assoc] at grounded
      generalize whole : h ++ l ++ [e] = hle at grounded
      cases grounded with
      | nil => simp at whole
      | snoc before _ =>
          obtain ⟨same, -⟩ := List.append_inj' whole rfl
          exact ih (same ▸ before)

theorem grounds {h l : History Call Reply} {e : Entry Call Reply}
    (grounded : Grounded (h ++ e :: l)) : Grounds h e := by
  have first : Grounded (h ++ [e]) := by
    rw [List.append_cons] at grounded
    exact grounded.of_append
  generalize whole : h ++ [e] = he at first
  cases first with
  | nil => simp at whole
  | snoc _ grounds =>
      obtain ⟨rfl, same⟩ := List.append_inj' whole rfl
      rw [List.singleton_inj.mp same]
      exact grounds

variable {h : History Call Reply} {k : Call} {n : Nat} {r r' : Reply}

theorem sent (grounded : Grounded h) (member : .executed k n r ∈ h) : .sent k ∈ h := by
  obtain ⟨a, b, rfl⟩ := List.append_of_mem member
  exact List.mem_append_left _ grounded.grounds.1

theorem executed (grounded : Grounded h) (member : .returned k n r ∈ h) : .executed k n r ∈ h := by
  obtain ⟨a, b, rfl⟩ := List.append_of_mem member
  exact List.mem_append_left _ grounded.grounds.1

/-- A copy is executed once. -/
theorem executed_unique (grounded : Grounded h) (member : .executed k n r ∈ h)
    (member' : .executed k n r' ∈ h) : r = r' := by
  induction grounded with
  | nil => cases member
  | @snoc h e before grounds ih =>
      rw [List.mem_append, List.mem_singleton] at member member'
      rcases member with old | rfl <;> rcases member' with old' | same
      · exact ih old old'
      · exact absurd old ((same ▸ grounds : Grounds h (.executed k n r')).2 r)
      · exact absurd old' (grounds.2 r')
      · cases same
        rfl

/-- What returned was sent, executed after that, and returned after that. -/
theorem returned_between {before after : History Call Reply}
    (grounded : Grounded (before ++ .returned k n r :: after)) :
    ∃ l₁ l₂ l₃, before = l₁ ++ .sent k :: l₂ ++ .executed k n r :: l₃ := by
  obtain ⟨first, l₃, rfl⟩ := List.append_of_mem grounded.grounds.1
  obtain ⟨l₁, l₂, rfl⟩ := List.append_of_mem grounded.of_append.grounds.1
  exact ⟨l₁, l₂, l₃, rfl⟩

end Grounded

/-! ## States -/

/-- The executions of a history, with their replies. -/
def executions (h : History Call Reply) : List (Call × Reply) :=
  h.filterMap fun
    | .executed k _ r => some (k, r)
    | _ => none

theorem mem_executions {h : History Call Reply} {k : Call} {r : Reply} :
    (k, r) ∈ executions h ↔ ∃ n, .executed k n r ∈ h := by
  simp only [executions, List.mem_filterMap]
  constructor
  · rintro ⟨e, member, same⟩
    cases e with
    | executed k' n r' =>
        cases same
        exact ⟨n, member⟩
    | sent _ => cases same
    | returned _ _ _ => cases same
  · rintro ⟨n, member⟩
    exact ⟨_, member, rfl⟩

theorem executions_append (h : History Call Reply) (e : Entry Call Reply) :
    executions (h ++ [e]) = executions h ++ executions [e] := List.filterMap_append ..

/-- The calls one after the other, and their replies. -/
def serial (apply : State → Call → Option (State × Reply)) :
    State → List Call → Option (State × List Reply)
  | s, [] => some (s, [])
  | s, k :: ks =>
      (apply s k).bind fun (t, r) => (serial apply t ks).map fun (u, rs) => (u, r :: rs)

theorem serial_snoc {apply : State → Call → Option (State × Reply)} {s t u : State}
    {ks : List Call} {rs : List Reply} {k : Call} {r : Reply}
    (before : serial apply s ks = some (t, rs)) (last : apply t k = some (u, r)) :
    serial apply s (ks ++ [k]) = some (u, rs ++ [r]) := by
  induction ks generalizing s rs with
  | nil =>
      cases before
      simp [serial, last]
  | cons k₀ ks ih =>
      simp only [serial, Option.bind_eq_some_iff, Option.map_eq_some_iff] at before
      obtain ⟨⟨s₁, r₀⟩, first, ⟨t', rs'⟩, rest, same⟩ := before
      cases same
      simp [serial, first, ih rest]

variable (apply : State → Call → Option (State × Reply))

/-- Each event has its cause, and `t` is the state after the executions. -/
structure AtLeastOnce (s : State) (h : History Call Reply) (t : State) : Prop where
  grounded : Grounded h
  serial : serial apply s ((executions h).map Prod.fst) = some (t, (executions h).map Prod.snd)

/-- `k` had returned when `k'` was sent. -/
def Precedes (h : History Call Reply) (k k' : Call) : Prop :=
  ∃ before after, h = before ++ after ∧ (∃ n r, .returned k n r ∈ before) ∧ .sent k' ∈ after

/-- `t` and the replies are those of the calls that returned, one after the other, each once, in
an order that respects the precedence of the history. -/
def ExactlyOnce (s : State) (h : History Call Reply) (t : State) : Prop :=
  ∃ order : List Call, order.Nodup ∧ (∀ k, k ∈ order ↔ ∃ n r, .returned k n r ∈ h) ∧
    order.Pairwise (fun k k' => ¬ Precedes h k' k) ∧
    ∃ replies, Calls.serial apply s order = some (t, replies) ∧
      List.Forall₂ (fun k r => ∃ n, .returned k n r ∈ h) order replies

variable {apply}

theorem AtLeastOnce.nil (s : State) : AtLeastOnce apply s [] s := ⟨.nil, rfl⟩

/-- An event that is not an execution leaves the state alone. -/
theorem AtLeastOnce.snoc {s t : State} {h : History Call Reply} {e : Entry Call Reply}
    (before : AtLeastOnce apply s h t) (grounds : Grounds h e) (quiet : executions [e] = []) :
    AtLeastOnce apply s (h ++ [e]) t where
  grounded := before.grounded.snoc grounds
  serial := by
    rw [executions_append, quiet, List.append_nil]
    exact before.serial

theorem AtLeastOnce.execute {s t u : State} {h : History Call Reply} {k : Call} {n : Nat}
    {r : Reply} (before : AtLeastOnce apply s h t) (grounds : Grounds h (.executed k n r))
    (applied : apply t k = some (u, r)) : AtLeastOnce apply s (h ++ [.executed k n r]) u where
  grounded := before.grounded.snoc grounds
  serial := by
    rw [executions_append, List.map_append, List.map_append]
    exact serial_snoc before.serial applied

theorem precedes_snoc {h : History Call Reply} {e : Entry Call Reply} {k k' : Call}
    (precedes : Precedes (h ++ [e]) k k') :
    Precedes h k k' ∨ (e = .sent k' ∧ ∃ n r, .returned k n r ∈ h) := by
  obtain ⟨before, after, whole, ⟨n, r, returned⟩, sent⟩ := precedes
  cases after using List.reverseRecOn with
  | nil => cases sent
  | append_singleton after e' =>
      rw [← List.append_assoc] at whole
      obtain ⟨rfl, same⟩ := List.append_inj' whole rfl
      cases same
      rw [List.mem_append, List.mem_singleton] at sent
      rcases sent with old | new
      · exact .inl ⟨before, after, rfl, ⟨n, r, returned⟩, old⟩
      · exact .inr ⟨new.symm, n, r, List.mem_append_left _ returned⟩

/-- No call of this history is executed twice. -/
def Single (h : History Call Reply) : Prop :=
  ∀ k n r n' r', .executed k n r ∈ h → .executed k n' r' ∈ h → n = n'

/-- The order of the executions, each of a call of its own, respects the precedence. -/
theorem Grounded.order {h : History Call Reply} (grounded : Grounded h) (single : Single h) :
    ((executions h).map Prod.fst).Nodup ∧
      ((executions h).map Prod.fst).Pairwise (fun k k' => ¬ Precedes h k' k) := by
  have executed_of_mem : ∀ {h : History Call Reply} {k : Call},
      k ∈ (executions h).map Prod.fst → ∃ n r, .executed k n r ∈ h := by
    intro h k listed
    obtain ⟨⟨_, r⟩, member, rfl⟩ := List.mem_map.mp listed
    obtain ⟨n, executed⟩ := mem_executions.mp member
    exact ⟨n, r, executed⟩
  induction grounded with
  | nil => exact ⟨.nil, .nil⟩
  | @snoc h e before grounds ih =>
      have old : ∀ {e'}, e' ∈ h → e' ∈ h ++ [e] := List.mem_append_left _
      obtain ⟨nodup, ordered⟩ := ih fun k n r n' r' member member' =>
        single k n r n' r' (old member) (old member')
      have kept : ((executions h).map Prod.fst).Pairwise
          (fun k k' => ¬ Precedes (h ++ [e]) k' k) := by
        refine ordered.imp_of_mem fun {k k'} member _ notBefore precedes => ?_
        rcases precedes_snoc precedes with earlier | ⟨rfl, -⟩
        · exact notBefore earlier
        · obtain ⟨n, r, executed⟩ := executed_of_mem member
          exact grounds (before.sent executed)
      rw [executions_append, List.map_append]
      cases e with
      | sent k => exact ⟨by simpa [executions] using nodup, by simpa [executions] using kept⟩
      | returned k n r => exact ⟨by simpa [executions] using nodup, by simpa [executions] using kept⟩
      | executed k n r =>
          have first : ∀ n' r', .executed k n' r' ∉ h := by
            intro n' r' again
            have same := single k n r n' r' (by simp) (old again)
            subst same
            exact grounds.2 r' again
          show (_ ++ [k]).Nodup ∧ (_ ++ [k]).Pairwise _
          constructor
          · refine List.nodup_append.mpr ⟨nodup, List.nodup_singleton k, ?_⟩
            intro k' member k'' last same
            rw [List.mem_singleton.mp last] at same
            subst same
            obtain ⟨n', r', executed⟩ := executed_of_mem member
            exact first n' r' executed
          · refine List.pairwise_append.mpr ⟨kept, List.pairwise_singleton .., ?_⟩
            intro k' member k'' last precedes
            rw [List.mem_singleton.mp last] at precedes
            rcases precedes_snoc precedes with ⟨a, b, rfl, ⟨n', r', returned⟩, -⟩ | ⟨impossible, -⟩
            · exact first n' r' (before.executed (List.mem_append_left _ returned))
            · cases impossible

/-- **Where no call is executed twice and each that is executed returns, each takes effect exactly
once.** -/
theorem AtLeastOnce.exactlyOnce {s t : State} {h : History Call Reply}
    (atLeast : AtLeastOnce apply s h t) (single : Single h)
    (settled : ∀ k n r, .executed k n r ∈ h → ∃ n' r', .returned k n' r' ∈ h) :
    ExactlyOnce apply s h t := by
  obtain ⟨nodup, ordered⟩ := atLeast.grounded.order single
  refine ⟨_, nodup, ?_, ordered, _, atLeast.serial, ?_⟩
  · intro k
    constructor
    · intro listed
      obtain ⟨⟨_, r⟩, member, rfl⟩ := List.mem_map.mp listed
      obtain ⟨n, executed⟩ := mem_executions.mp member
      exact settled _ _ _ executed
    · rintro ⟨n, r, returned⟩
      have executed := atLeast.grounded.executed returned
      exact List.mem_map.mpr ⟨(k, r), mem_executions.mpr ⟨n, executed⟩, rfl⟩
  · rw [List.forall₂_map_left_iff, List.forall₂_map_right_iff, List.forall₂_same]
    rintro ⟨k, r⟩ member
    obtain ⟨n, executed⟩ := mem_executions.mp member
    obtain ⟨n', r', returned⟩ := settled _ _ _ executed
    have executed' := atLeast.grounded.executed returned
    obtain rfl := single _ _ _ _ _ executed executed'
    obtain rfl := atLeast.grounded.executed_unique executed executed'
    exact ⟨n, returned⟩

end Piac.Theory.Calls
