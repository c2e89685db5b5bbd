/-
# Theory.Fields — the fields of a list and its words

A predicate `sep` marks separators. `fields` are the pieces that a splitter yields which
cuts at every single separator and leaves out an empty rest; `runs` are the words, the
maximal runs without separators.

* `filter_fields`: the words are the fields that are not empty.
* `fields_eq_runs`: the two agree on the lists without a separator in front or next to
  another one (`Spaced`), and on no others.
* `Widened.length_fields`: one more separator in front of a list or next to another one
  makes one more field, so that no number of them leaves the fields as they are
  (`fields_widened`).
-/
import Mathlib.Data.List.SplitBy
import Mathlib.Data.List.TakeWhile
import Mathlib.Logic.Relation

namespace Piac.Theory.Fields

set_option autoImplicit false

variable {α : Type*} (sep : α → Bool)

/-- The words: of the maximal runs of one kind those that are no separators. -/
def runs (s : List α) : List (List α) :=
  (s.splitBy fun a b => sep a == sep b).filter fun run => run.all (!sep ·)

/-- No separator in front, no two next to each other. -/
def Spaced (s : List α) : Prop :=
  (∀ a ∈ s.head?, sep a = false) ∧ s.IsChain fun a b => sep a = false ∨ sep b = false

variable {sep}

/-! ## More separators -/

variable (sep) in
/-- `t` is `s` with one more separator, in front or next to another one. -/
def Widened (s t : List α) : Prop :=
  ∃ before after blank, sep blank = true ∧ s = before ++ after ∧ t = before ++ blank :: after ∧
    (before = [] ∨ (∃ a ∈ before.getLast?, sep a = true) ∨ ∃ a ∈ after.head?, sep a = true)

/-- A spaced list is no other one with more separators. -/
theorem Spaced.eq_of_widened {s t : List α} (spaced : Spaced sep t)
    (wider : Relation.ReflTransGen (Widened sep) s t) : s = t := by
  cases wider with
  | refl => rfl
  | tail _ more =>
      obtain ⟨before, after, blank, cut, -, rfl, place⟩ := more
      obtain ⟨front, chain⟩ := spaced
      rcases place with rfl | ⟨a, last, found⟩ | ⟨a, first, found⟩
      · simp [cut] at front
      · obtain ⟨start, rfl⟩ := List.getLast?_eq_some_iff.mp last
        rw [List.append_assoc, List.singleton_append] at chain
        have pair := (List.isChain_cons_cons.mp (List.isChain_append.mp chain).2.1).1
        simp [found, cut] at pair
      · obtain ⟨rest, rfl⟩ := List.head?_eq_some_iff.mp first
        have pair := (List.isChain_cons_cons.mp (List.isChain_append.mp chain).2.1).1
        simp [found, cut] at pair

/-! ## Words -/

theorem splitBy_kind {kind : Bool} {w : List α} (same : ∀ a ∈ w, sep a = kind) (pos : w ≠ []) :
    (w.splitBy fun a b => sep a == sep b) = [w] := by
  refine List.splitBy_of_isChain pos (List.Pairwise.isChain ?_)
  refine List.pairwise_of_forall_mem_list fun a left b right => ?_
  rw [same a left, same b right]
  exact beq_self_eq_true kind

theorem splitBy_append_kind {kind : Bool} {w rest : List α} (same : ∀ a ∈ w, sep a = kind)
    (other : ∀ b ∈ rest.head?, sep b = !kind) :
    ((w ++ rest).splitBy fun a b => sep a == sep b) =
      (w.splitBy fun a b => sep a == sep b) ++ rest.splitBy fun a b => sep a == sep b := by
  refine List.splitBy_append fun a last b first => ?_
  rw [same a (List.mem_of_mem_getLast? last), other b first]
  cases kind <;> rfl

theorem runs_append_word {w rest : List α} (word : ∀ a ∈ w, sep a = false) (pos : w ≠ [])
    (stop : ∀ b ∈ rest.head?, sep b = true) : runs sep (w ++ rest) = w :: runs sep rest := by
  have all : w.all (!sep ·) = true := List.all_eq_true.mpr fun a member => by simp [word a member]
  rw [runs, splitBy_append_kind word stop, splitBy_kind word pos, List.filter_append,
    List.filter_singleton, all]
  rfl

theorem runs_append_sep {gap rest : List α} (blank : ∀ a ∈ gap, sep a = true)
    (stop : ∀ b ∈ rest.head?, sep b = false) : runs sep (gap ++ rest) = runs sep rest := by
  by_cases empty : gap = []
  · rw [empty, List.nil_append]
  have notAll : gap.all (!sep ·) = false := by
    obtain ⟨a, member⟩ := List.exists_mem_of_ne_nil gap empty
    exact List.all_eq_false.mpr ⟨a, member, by simp [blank a member]⟩
  rw [runs, splitBy_append_kind blank stop, splitBy_kind blank empty, List.filter_append,
    List.filter_singleton, notAll]
  rfl

theorem head_dropWhile (p : α → Bool) (s : List α) : ∀ b ∈ (s.dropWhile p).head?, p b = false := by
  intro b first
  have := List.head?_dropWhile_not p s
  rw [Option.mem_def.mp first] at this
  simpa using this

theorem runs_cons_sep {a : α} (s : List α) (blank : sep a = true) :
    runs sep (a :: s) = runs sep s := by
  have gap : ∀ b ∈ s.takeWhile sep, sep b = true := fun b => List.mem_takeWhile_imp
  calc runs sep (a :: s)
    _ = runs sep ((a :: s.takeWhile sep) ++ s.dropWhile sep) := by
        rw [List.cons_append, List.takeWhile_append_dropWhile]
    _ = runs sep (s.dropWhile sep) :=
        runs_append_sep (List.forall_mem_cons.mpr ⟨blank, gap⟩) (head_dropWhile sep s)
    _ = runs sep (s.takeWhile sep ++ s.dropWhile sep) :=
        (runs_append_sep gap (head_dropWhile sep s)).symm
    _ = runs sep s := by rw [List.takeWhile_append_dropWhile]

/-- **The words are the pieces that are not empty.** -/
theorem filter_splitOnP (s : List α) : (s.splitOnP sep).filter (· ≠ []) = runs sep s := by
  induction size : s.length using Nat.strong_induction_on generalizing s with
  | _ n ih =>
      subst size
      match s with
      | [] => rfl
      | a :: s =>
          by_cases blank : sep a = true
          · rw [List.splitOnP_cons_eq_if_modifyHead, if_pos blank, runs_cons_sep s blank,
              List.filter_cons_of_neg (by simp)]
            exact ih s.length (by simp) s rfl
          -- the first word ends with the list or in front of a separator
          let w := (a :: s).takeWhile (!sep ·)
          have whole : a :: s = w ++ (a :: s).dropWhile (!sep ·) :=
            (List.takeWhile_append_dropWhile).symm
          have word : ∀ b ∈ w, sep b = false := fun b member => by
            simpa using List.mem_takeWhile_imp member
          have pos : w ≠ [] := by simp [w, blank]
          have stop := head_dropWhile (!sep ·) (a :: s)
          cases rest : (a :: s).dropWhile (!sep ·) with
          | nil =>
              rw [rest, List.append_nil] at whole
              rw [whole, List.splitOnP_eq_singleton word, ← List.append_nil w,
                runs_append_word word pos (by simp), List.append_nil]
              simp [pos, runs]
          | cons b rest' =>
              rw [rest] at whole stop
              have cut : sep b = true := by simpa using stop b rfl
              have shorter : rest'.length < (a :: s).length := by
                rw [whole]
                simp
                omega
              rw [whole, List.splitOnP_append_cons_of_forall_mem word b cut,
                runs_append_word word pos (by simpa using cut), runs_cons_sep rest' cut,
                List.filter_cons_of_pos (by simpa using pos), ih _ shorter rest' rfl]

/-! ## Fields -/

variable [DecidableEq α]

variable (sep) in
/-- What is between two separators, before the first and after the last; if nothing is after
the last, no field is there. -/
def fields (s : List α) : List (List α) :=
  let pieces := s.splitOnP sep
  if pieces.getLast? = some [] then pieces.dropLast else pieces

theorem fields_eq_if (s : List α) : fields sep s =
    if (s.splitOnP sep).getLast? = some [] then (s.splitOnP sep).dropLast
    else s.splitOnP sep :=
  rfl

theorem fields_cons_sep {a : α} (s : List α) (blank : sep a = true) :
    fields sep (a :: s) = [] :: fields sep s := by
  obtain ⟨p, ps, eq⟩ := List.exists_cons_of_ne_nil (List.splitOnP_ne_nil sep s)
  have pieces : (a :: s).splitOnP sep = [] :: p :: ps := by
    rw [List.splitOnP_cons_eq_if_modifyHead, if_pos blank, eq]
  rw [fields_eq_if, fields_eq_if, pieces, eq, List.getLast?_cons_cons]
  split
  · rfl
  · rfl

theorem fields_cons {a : α} (s : List α) (inside : sep a = false) :
    fields sep (a :: s) = (a :: (fields sep s).headD []) :: (fields sep s).tail := by
  obtain ⟨p, ps, eq⟩ := List.exists_cons_of_ne_nil (List.splitOnP_ne_nil sep s)
  have pieces : (a :: s).splitOnP sep = (a :: p) :: ps := by
    rw [List.splitOnP_cons_eq_if_modifyHead, if_neg (by simp [inside]), eq]
    rfl
  rw [fields_eq_if, fields_eq_if, pieces, eq]
  cases ps with
  | nil =>
      by_cases empty : p = []
      · simp [empty]
      · simp [empty]
  | cons q qs =>
      rw [List.getLast?_cons_cons, List.getLast?_cons_cons]
      split
      · rfl
      · rfl

/-- **The words are the fields that are not empty.** -/
theorem filter_fields (s : List α) : (fields sep s).filter (· ≠ []) = runs sep s := by
  rw [← filter_splitOnP, fields_eq_if]
  split
  · rename_i last
    conv_rhs => rw [← List.dropLast_append_getLast? _ last, List.filter_append]
    simp
  · rfl

/-- After the first field an empty one stands between neighbours. -/
theorem nil_notMem_tail_fields (s : List α) : [] ∉ (fields sep s).tail ↔
    s.IsChain fun a b => sep a = false ∨ sep b = false := by
  induction s with
  | nil => simp [fields]
  | cons a s ih =>
      rw [List.isChain_cons]
      cases inside : sep a with
      | true =>
          rw [fields_cons_sep s inside, List.tail_cons]
          cases s with
          | nil => simp [fields]
          | cons b s =>
              cases next : sep b with
              | true => simp [fields_cons_sep s next, next]
              | false =>
                  rw [fields_cons s next, List.tail_cons] at ih
                  simpa [fields_cons s next, next] using ih
      | false =>
          rw [fields_cons s inside, List.tail_cons, ih]
          simp

theorem nil_notMem_fields (s : List α) : [] ∉ fields sep s ↔ Spaced sep s := by
  rw [Spaced, ← nil_notMem_tail_fields]
  cases s with
  | nil => simp [fields]
  | cons a s =>
      cases inside : sep a with
      | true => simp [fields_cons_sep s inside, inside]
      | false => simp [fields_cons s inside, inside]

/-- **The fields are the words exactly on spaced lists.** -/
theorem fields_eq_runs (s : List α) : fields sep s = runs sep s ↔ Spaced sep s := by
  rw [← nil_notMem_fields, ← filter_fields, eq_comm, List.filter_eq_self]
  constructor
  · intro some_ member
    simpa using some_ [] member
  · intro absent w member
    simp only [ne_eq, decide_not, Bool.not_eq_true', decide_eq_false_iff_not]
    rintro rfl
    exact absent member

/-! ## One more field -/

theorem length_fields_cons_sep {a : α} (s : List α) (blank : sep a = true) :
    (fields sep (a :: s)).length = (fields sep s).length + 1 := by
  rw [fields_cons_sep s blank, List.length_cons]

theorem fields_append_sep {a : α} (before rest : List α) (blank : sep a = true) :
    fields sep (before ++ a :: rest) = before.splitOnP sep ++ fields sep rest := by
  obtain ⟨p, ps, eq⟩ := List.exists_cons_of_ne_nil (List.splitOnP_ne_nil sep rest)
  rw [fields_eq_if, fields_eq_if, List.splitOnP_append_cons _ _ blank, eq,
    List.getLast?_append_of_ne_nil _ (by simp)]
  split
  · rw [List.dropLast_append_of_ne_nil (by simp)]
  · rfl

/-- **One more separator, one more field.** -/
theorem Widened.length_fields {s t : List α} (wider : Widened sep s t) :
    (fields sep t).length = (fields sep s).length + 1 := by
  obtain ⟨before, after, blank, cut, rfl, rfl, place⟩ := wider
  rcases place with rfl | ⟨a, last, found⟩ | ⟨a, first, found⟩
  · exact length_fields_cons_sep after cut
  · obtain ⟨front, rfl⟩ := List.getLast?_eq_some_iff.mp last
    rw [List.append_assoc, List.append_assoc, List.singleton_append, List.singleton_append,
      fields_append_sep front _ found, fields_append_sep front _ found, List.length_append,
      length_fields_cons_sep after cut, List.length_append]
    omega
  · obtain ⟨rest, rfl⟩ := List.head?_eq_some_iff.mp first
    rw [fields_append_sep before _ cut, fields_append_sep before _ found, List.length_append,
      length_fields_cons_sep rest found, List.length_append]
    omega

theorem length_fields_le {s t : List α} (wider : Relation.ReflTransGen (Widened sep) s t) :
    s = t ∨ (fields sep s).length < (fields sep t).length := by
  induction wider with
  | refl => exact .inl rfl
  | tail _ more ih =>
      have := more.length_fields
      rcases ih with rfl | less
      · exact .inr (by omega)
      · exact .inr (by omega)

/-- More separators never leave the fields as they are. -/
theorem fields_widened {s t : List α} (wider : Relation.ReflTransGen (Widened sep) s t) :
    fields sep s = fields sep t ↔ s = t := by
  refine ⟨fun same => ?_, fun same => same ▸ rfl⟩
  rcases length_fields_le wider with eq | less
  · exact eq
  · rw [same] at less
    exact absurd less (Nat.lt_irrefl _)

end Piac.Theory.Fields
