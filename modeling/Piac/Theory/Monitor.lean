/-
# Theory.Monitor — a value behind a mutex, a flag and a condition variable

A writer rebuilds a value under a mutex, stage by stage, with a flag down while it does,
and notifies one waiter. A reader takes the mutex, waits on the condition until the flag is
up, lets go of the mutex and only then reads. A wait gives the mutex up and may end for no
reason at all.

* `Upheld`: who holds the mutex, and who is still to be woken.
* `raised_of_through`: nobody reads before the first rebuild is over.
* `ready_of_entered`: after that no look at the flag finds it down.
* `waits_end`: however the two are scheduled, they come to a rest, and then the reader
  waits for nothing but a first rebuild that has not begun.
-/
import Piac.Theory.Transition
import Mathlib.Data.List.Induction

namespace Piac.Theory.Monitor

set_option autoImplicit false

open Piac.Theory.Transition

universe u

variable {α : Type u}

/-! ## Two threads -/

/-- The writer, with the stages that are still to come. -/
inductive Writer (α : Type u) where
  | away
  | entered (stages : List α)
  | building (stages : List α)
  | raised
  | notified

inductive Reader where
  | away
  /-- At the mutex. -/
  | wanting
  | entered
  /-- On the condition, without the mutex. -/
  | waiting
  /-- Off the condition, at the mutex again. -/
  | woken
  | through
  /-- Without the mutex. -/
  | reading
  deriving DecidableEq

inductive Party where
  | writer
  | reader
  deriving DecidableEq

structure State (α : Type u) where
  value : α
  ready : Bool
  owner : Option Party
  writer : Writer α
  reader : Reader

/-- Before the first rebuild. -/
def State.start (value : α) : State α :=
  { value, ready := false, owner := none, writer := .away, reader := .away }

inductive Label (α : Type u) where
  | begin (stages : List α)
  | lower
  | build
  | raise
  | notify
  | leave
  | want
  | lock
  | check
  | spurious
  | relock
  | unlock
  | finish

def step (s : State α) : Label α → Option (State α)
  | .begin stages =>
      match s.writer, s.owner with
      | .away, none => some { s with writer := .entered stages, owner := some .writer }
      | _, _ => none
  | .lower =>
      match s.writer with
      | .entered stages => some { s with writer := .building stages, ready := false }
      | _ => none
  | .build =>
      match s.writer with
      | .building (value :: stages) => some { s with writer := .building stages, value }
      | _ => none
  | .raise =>
      match s.writer with
      | .building [] => some { s with writer := .raised, ready := true }
      | _ => none
  | .notify =>
      match s.writer with
      | .raised =>
          some { s with writer := .notified
                        reader := if s.reader = .waiting then .woken else s.reader }
      | _ => none
  | .leave =>
      match s.writer with
      | .notified => some { s with writer := .away, owner := none }
      | _ => none
  | .want => if s.reader = .away then some { s with reader := .wanting } else none
  | .lock =>
      if s.reader = .wanting ∧ s.owner = none then
        some { s with reader := .entered, owner := some .reader }
      else none
  | .check =>
      if s.reader = .entered then
        if s.ready then some { s with reader := .through }
        else some { s with reader := .waiting, owner := none }
      else none
  | .spurious => if s.reader = .waiting then some { s with reader := .woken } else none
  | .relock =>
      if s.reader = .woken ∧ s.owner = none then
        some { s with reader := .entered, owner := some .reader }
      else none
  | .unlock =>
      if s.reader = .through then some { s with reader := .reading, owner := none } else none
  | .finish => if s.reader = .reading then some { s with reader := .away } else none

/-- What the threads do by themselves once they are in: no new rebuild or read begins, a read
takes as long as it takes, and no wait ends for no reason. -/
def Internal (_ : State α) : Label α → Prop
  | .begin _ | .want | .finish | .spurious => False
  | _ => True

/-- What a step can do. -/
inductive Steps (s : State α) : Label α → State α → Prop where
  | begin {stages : List α} : s.writer = .away → s.owner = none →
      Steps s (.begin stages) { s with writer := .entered stages, owner := some .writer }
  | lower {stages : List α} : s.writer = .entered stages →
      Steps s .lower { s with writer := .building stages, ready := false }
  | build {value : α} {stages : List α} : s.writer = .building (value :: stages) →
      Steps s .build { s with writer := .building stages, value }
  | raise : s.writer = .building [] → Steps s .raise { s with writer := .raised, ready := true }
  | notify : s.writer = .raised → s.reader = .waiting →
      Steps s .notify { s with writer := .notified, reader := .woken }
  | notifyNobody : s.writer = .raised → s.reader ≠ .waiting →
      Steps s .notify { s with writer := .notified }
  | leave : s.writer = .notified → Steps s .leave { s with writer := .away, owner := none }
  | want : s.reader = .away → Steps s .want { s with reader := .wanting }
  | lock : s.reader = .wanting → s.owner = none →
      Steps s .lock { s with reader := .entered, owner := some .reader }
  | pass : s.reader = .entered → s.ready = true → Steps s .check { s with reader := .through }
  | wait : s.reader = .entered → s.ready = false →
      Steps s .check { s with reader := .waiting, owner := none }
  | spurious : s.reader = .waiting → Steps s .spurious { s with reader := .woken }
  | relock : s.reader = .woken → s.owner = none →
      Steps s .relock { s with reader := .entered, owner := some .reader }
  | unlock : s.reader = .through → Steps s .unlock { s with reader := .reading, owner := none }
  | finish : s.reader = .reading → Steps s .finish { s with reader := .away }

theorem step_eq_some {s t : State α} {l : Label α} : step s l = some t ↔ Steps s l t := by
  constructor
  · intro stepped
    cases l with
    | begin stages =>
        simp only [step] at stepped
        split at stepped
        · cases stepped; exact .begin ‹_› ‹_›
        · cases stepped
    | lower =>
        simp only [step] at stepped
        split at stepped
        · cases stepped; exact .lower ‹_›
        · cases stepped
    | build =>
        simp only [step] at stepped
        split at stepped
        · cases stepped; exact .build ‹_›
        · cases stepped
    | raise =>
        simp only [step] at stepped
        split at stepped
        · cases stepped; exact .raise ‹_›
        · cases stepped
    | notify =>
        simp only [step] at stepped
        split at stepped
        · cases stepped
          split
          · exact .notify ‹_› ‹_›
          · exact .notifyNobody ‹_› ‹_›
        · cases stepped
    | leave =>
        simp only [step] at stepped
        split at stepped
        · cases stepped; exact .leave ‹_›
        · cases stepped
    | check =>
        obtain ⟨here, done⟩ := Option.ite_none_right_eq_some.mp stepped
        split at done
        · cases done; exact .pass here ‹_›
        · cases done; exact .wait here (Bool.eq_false_of_not_eq_true ‹_›)
    | want => obtain ⟨here, same⟩ := Option.ite_none_right_eq_some.mp stepped; cases same; exact .want here
    | lock => obtain ⟨here, same⟩ := Option.ite_none_right_eq_some.mp stepped; cases same; exact .lock here.1 here.2
    | spurious => obtain ⟨here, same⟩ := Option.ite_none_right_eq_some.mp stepped; cases same; exact .spurious here
    | relock => obtain ⟨here, same⟩ := Option.ite_none_right_eq_some.mp stepped; cases same; exact .relock here.1 here.2
    | unlock => obtain ⟨here, same⟩ := Option.ite_none_right_eq_some.mp stepped; cases same; exact .unlock here
    | finish => obtain ⟨here, same⟩ := Option.ite_none_right_eq_some.mp stepped; cases same; exact .finish here
  · intro steps
    cases steps with
    | begin here free => simp [step, here, free]
    | lower here => simp [step, here]
    | build here => simp [step, here]
    | raise here => simp [step, here]
    | notify here there => simp [step, here, there]
    | notifyNobody here there => simp [step, here, there]
    | leave here => simp [step, here]
    | want here => simp [step, here]
    | lock here free => simp [step, here, free]
    | pass here up => simp [step, here, up]
    | wait here down => simp [step, here, down]
    | spurious here => simp [step, here]
    | relock here free => simp [step, here, free]
    | unlock here => simp [step, here]
    | finish here => simp [step, here]

/-! ## The invariant -/

/-- Who holds the mutex, and that a reader waits while the flag is up only for a notification
that is still to come. -/
structure Upheld (s : State α) : Prop where
  writer : s.owner = some .writer ↔ s.writer ≠ .away
  reader : s.owner = some .reader ↔ s.reader = .entered ∨ s.reader = .through
  woken : s.reader = .waiting → s.ready = true → s.writer = .raised
  raised : s.writer = .raised ∨ s.writer = .notified → s.ready = true

theorem Upheld.start (value : α) : Upheld (.start value) := by
  constructor <;> simp [State.start]

theorem Steps.upheld {s t : State α} {l : Label α} (steps : Steps s l t) (upheld : Upheld s) :
    Upheld t := by
  obtain ⟨writer, reader, woken, raised⟩ := upheld
  cases steps <;> constructor <;> grind -ring -linarith

/-! ## What has happened so far -/

/-- The value a rebuild ends with. -/
def Label.makes (value : α) : Label α → α
  | .begin stages => stages.getLastD value
  | _ => value

/-- The value of the last rebuild that has begun. -/
def built (value : α) (ls : List (Label α)) : α := ls.foldl (fun v l => l.makes v) value

/-- What the value is about to be. -/
def State.pending (s : State α) : α :=
  match s.writer with
  | .entered stages => stages.getLastD s.value
  | .building stages => stages.getLastD s.value
  | _ => s.value

/-- The writer has begun a rebuild and not ended it. -/
def Writer.Busy (w : Writer α) : Prop :=
  ∃ stages, w = .entered stages ∨ w = .building stages

/-- A state after these steps. -/
structure After (value : α) (ls : List (Label α)) (s : State α) : Prop where
  upheld : Upheld s
  begun : ∀ stages, .begin stages ∈ ls → .raise ∈ ls ∨ s.writer.Busy
  ready : s.ready = true → .raise ∈ ls
  up : .raise ∈ ls → s.ready = true ∨ ∃ stages, s.writer = .building stages
  through : s.reader = .through ∨ s.reader = .reading → .raise ∈ ls
  value : s.pending = built value ls

theorem built_append (value : α) (ls : List (Label α)) (l : Label α) :
    built value (ls ++ [l]) = l.makes (built value ls) := by
  simp [built]

/-- A rebuild that no other has followed is the last one. -/
theorem built_last {value : α} {earlier later : List (Label α)} {stages : List α}
    (last : ∀ stages, .begin stages ∉ later) :
    built value (earlier ++ .begin stages :: later) = stages.getLastD (built value earlier) := by
  induction later using List.reverseRecOn with
  | nil => exact built_append ..
  | append_singleton later l ih =>
      have other : ∀ stages, l ≠ .begin stages := by
        rintro stages rfl
        exact last stages (List.mem_append_right _ (List.mem_singleton_self _))
      rw [← List.cons_append, ← List.append_assoc, built_append,
        ih fun stages member => last stages (List.mem_append_left _ member)]
      cases l with
      | begin stages => exact absurd rfl (other stages)
      | _ => rfl

theorem After.start (value : α) : After value [] (.start value) where
  upheld := .start value
  begun _ member := by cases member
  ready up := by cases up
  up member := by cases member
  through there := by rcases there with there | there <;> cases there
  value := rfl

theorem After.step {value : α} {ls : List (Label α)} {s t : State α} {l : Label α}
    (after : After value ls s) (steps : Steps s l t) : After value (ls ++ [l]) t := by
  obtain ⟨upheld, begun, ready, up, through, same⟩ := after
  refine ⟨steps.upheld upheld, fun stages member => ?_, fun raised => ?_, fun member => ?_,
    fun there => ?_, ?_⟩
  · rw [List.mem_append, List.mem_singleton] at member ⊢
    cases steps <;> grind -ring -linarith [Writer.Busy]
  · rw [List.mem_append, List.mem_singleton]
    cases steps <;> grind -ring -linarith
  · rw [List.mem_append, List.mem_singleton] at member
    cases steps <;> grind -ring -linarith [Upheld]
  · rw [List.mem_append, List.mem_singleton]
    cases steps <;> grind -ring -linarith
  · rw [built_append, ← same]
    cases steps with
    | build here => simp only [State.pending, here, Label.makes, List.getLastD_cons]
    | _ => simp_all [State.pending, Label.makes]

theorem after_of_run {allowed : State α → Label α → Prop} {value : α} {ls : List (Label α)}
    {s : State α} (run : Run step allowed (.start value) ls s) : After value ls s :=
  run.history (After.start value) fun _ _ _ _ after _ stepped =>
    after.step (step_eq_some.mp stepped)

section Safety

variable {allowed : State α → Label α → Prop} {value : α} {ls : List (Label α)} {s : State α}

/-- **Nobody reads before the first rebuild is over.** -/
theorem raised_of_through (run : Run step allowed (.start value) ls s)
    (there : s.reader = .through ∨ s.reader = .reading) : .raise ∈ ls :=
  (after_of_run run).through there

/-- **After that the reader does not wait any more**: it never finds the flag down. -/
theorem ready_of_entered (run : Run step allowed (.start value) ls s) (raised : .raise ∈ ls)
    (here : s.reader = .entered) : s.ready = true := by
  obtain ⟨upheld, -, -, up, -, -⟩ := after_of_run run
  rcases up raised with ready | ⟨stages, building⟩
  · exact ready
  · -- the writer would hold the mutex as well
    have owns := upheld.reader.mpr (.inl here)
    rw [upheld.writer.mpr (by rw [building]; exact nofun)] at owns
    cases owns

/-- While the flag is up and the writer is out, the value is that of the last rebuild. -/
theorem value_of_away (run : Run step allowed (.start value) ls s) (away : s.writer = .away) :
    s.value = built value ls := by
  have same := (after_of_run run).value
  rwa [State.pending, away] at same

end Safety

/-! ## The waits end -/

def Writer.rank : Writer α → Nat
  | .away => 0
  | .notified => 1
  | .raised => 2
  | .building stages => stages.length + 3
  | .entered stages => stages.length + 4

def Reader.rank : Reader → Nat
  | .away => 0
  | .reading => 0
  | .waiting => 0
  | .through => 1
  | .entered => 2
  | .wanting => 3
  | .woken => 3

/-- A step of the writer counts for more than what it can wake the reader to. -/
def State.rank (s : State α) : Nat := 4 * s.writer.rank + s.reader.rank

theorem Steps.rank_lt {s t : State α} {l : Label α} (steps : Steps s l t) (internal : Internal s l) :
    t.rank < s.rank := by
  cases steps <;> simp_all [Internal, State.rank, Writer.rank, Reader.rank]

theorem not_diverges_internal (s : State α) : ¬ Diverges step Internal s :=
  @not_diverges _ _ step Internal _ _ wellFounded_lt (fun _ => True) State.rank s trivial
    fun _ _ _ _ internal stepped => ⟨trivial, (step_eq_some.mp stepped).rank_lt internal⟩

/-- Where neither can take a step by itself, the writer is out, and the reader is out, reads or
waits on the condition. -/
theorem out_of_stuck {s : State α} (upheld : Upheld s) (stuck : Stuck step Internal s) :
    s.writer = .away ∧ (s.reader = .away ∨ s.reader = .reading ∨ s.reader = .waiting) := by
  have disabled : ∀ {l t}, Steps s l t → ¬ Internal s l := fun {l t} steps internal => by
    rw [← step_eq_some, stuck l internal] at steps
    cases steps
  have away : s.writer = .away := by
    cases writer : s.writer with
    | away => rfl
    | entered stages => exact absurd trivial (disabled (.lower writer))
    | building stages =>
        cases stages with
        | nil => exact absurd trivial (disabled (.raise writer))
        | cons value stages => exact absurd trivial (disabled (.build writer))
    | raised =>
        by_cases waits : s.reader = .waiting
        · exact absurd trivial (disabled (.notify writer waits))
        · exact absurd trivial (disabled (.notifyNobody writer waits))
    | notified => exact absurd trivial (disabled (.leave writer))
  have free (outside : s.reader ≠ .entered ∧ s.reader ≠ .through) : s.owner = none := by
    cases owner : s.owner with
    | none => rfl
    | some party =>
        cases party with
        | writer => exact absurd away (upheld.writer.mp owner)
        | reader => exact absurd (upheld.reader.mp owner) (not_or.mpr outside)
  refine ⟨away, ?_⟩
  cases reader : s.reader with
  | away => exact .inl rfl
  | reading => exact .inr (.inl rfl)
  | waiting => exact .inr (.inr rfl)
  | wanting => exact absurd trivial (disabled (.lock reader (free (by simp [reader]))))
  | woken => exact absurd trivial (disabled (.relock reader (free (by simp [reader]))))
  | through => exact absurd trivial (disabled (.unlock reader))
  | entered =>
      cases ready : s.ready with
      | true => exact absurd trivial (disabled (.pass reader ready))
      | false => exact absurd trivial (disabled (.wait reader ready))

theorem makes_internal {s : State α} {l : Label α} (internal : Internal s l) (value : α) :
    l.makes value = value := by
  cases l with
  | begin _ => exact internal.elim
  | _ => rfl

theorem built_internal {s t : State α} {ms : List (Label α)} (run : Run step Internal s ms t)
    (value : α) (ls : List (Label α)) : built value (ls ++ ms) = built value ls := by
  induction run with
  | nil => rw [List.append_nil]
  | snoc _ internal _ ih => rw [← List.append_assoc, built_append, makes_internal internal, ih]

/-- Both are at rest: the value is that of the last rebuild, and if the reader waits, none has
begun. -/
structure Rested (value : α) (ls : List (Label α)) (s : State α) : Prop where
  writer : s.writer = .away
  value : s.value = built value ls
  reader : s.reader = .away ∨ s.reader = .reading ∨
    (s.reader = .waiting ∧ ∀ stages, .begin stages ∉ ls)

/-- **The waits end**, and no notification is lost: from every state that is reached, however
the two are scheduled, they come to a rest, there is a way to one, and where they rest the
reader does not wait if a rebuild had begun. -/
theorem waits_end {allowed : State α → Label α → Prop} {value : α} {ls : List (Label α)}
    {s : State α} (run : Run step allowed (.start value) ls s) :
    ¬ Diverges step Internal s ∧
    (∃ ms t, Run step Internal s ms t ∧ Stuck step Internal t) ∧
    ∀ ms t, Run step Internal s ms t → Stuck step Internal t → Rested value ls t := by
  refine ⟨not_diverges_internal s, exists_stuck (not_diverges_internal s), fun ms t more stuck => ?_⟩
  have whole : Run step (fun _ _ => True) (.start value) (ls ++ ms) t :=
    (run.weaken fun _ _ _ => trivial).trans (more.weaken fun _ _ _ => trivial)
  have after := after_of_run whole
  obtain ⟨away, reader⟩ := out_of_stuck after.upheld stuck
  refine ⟨away, by rw [value_of_away whole away, built_internal more], ?_⟩
  refine reader.imp_right fun reader => reader.imp_right fun waits => ⟨waits, fun stages member => ?_⟩
  -- a flag that is up, or a rebuild under way, would have the writer in
  rcases after.begun stages (List.mem_append_left _ member) with raised | ⟨stages, busy⟩
  · rcases after.up raised with ready | ⟨stages, building⟩
    · rw [after.upheld.woken waits ready] at away
      cases away
    · rw [building] at away
      cases away
  · rw [away] at busy
    rcases busy with busy | busy <;> cases busy

end Piac.Theory.Monitor
