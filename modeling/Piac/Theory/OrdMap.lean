/-
# Theory.OrdMap — ordered maps

A map is the list of its entries, strictly sorted by key; the structure carries the
proof. It is walked in the order of the keys, so two maps with the same values under
the same keys are one map (`OrdMap.ext_get?`).

* `set` replaces the value under a key or adds the key (`get?_set`);
* `merge` sets the entries of another map one after the other (`get?_merge`), and
  leaves nothing of its own exactly when the other map has all its keys
  (`merge_eq_right_iff`);
* `mapVal` maps the values (`get?_mapVal`);
* a search finds the entry with the least key (`find?_eq_some_iff`).
-/
import Mathlib.Data.List.Lex
import Mathlib.Order.Lattice

namespace Piac.Theory

set_option autoImplicit false

universe u v w

structure OrdMap (Key : Type u) (Value : Type v) [LinearOrder Key] where
  entries : List (Key × Value)
  sorted : entries.Pairwise fun a b => a.1 < b.1

namespace OrdMap

variable {Key : Type u} {Value : Type v} [LinearOrder Key]

instance [DecidableEq Value] : DecidableEq (OrdMap Key Value) := fun m n =>
  decidable_of_iff (m.entries = n.entries) ⟨fun same => by cases m; cases n; cases same; rfl,
    fun same => same ▸ rfl⟩

def empty : OrdMap Key Value := ⟨[], .nil⟩

/-- The value under a key in a list of entries. -/
def find (k : Key) : List (Key × Value) → Option Value
  | [] => none
  | e :: rest => if e.1 = k then some e.2 else find k rest

def get? (m : OrdMap Key Value) (k : Key) : Option Value := find k m.entries

def contains (m : OrdMap Key Value) (k : Key) : Bool := (m.get? k).isSome

/-- The entry in its place, instead of an old one under the key. -/
def insert (k : Key) (v : Value) : List (Key × Value) → List (Key × Value)
  | [] => [(k, v)]
  | e :: rest =>
      if k < e.1 then (k, v) :: e :: rest
      else if k = e.1 then (k, v) :: rest
      else e :: insert k v rest

theorem mem_insert {k : Key} {v : Value} {e : Key × Value} {entries : List (Key × Value)}
    (member : e ∈ insert k v entries) : e = (k, v) ∨ e ∈ entries := by
  induction entries with
  | nil => exact .inl (List.mem_singleton.mp member)
  | cons a rest ih =>
      unfold insert at member
      split at member
      · exact (List.mem_cons.mp member).imp_right id
      · split at member
        · exact (List.mem_cons.mp member).imp_right (List.mem_cons_of_mem _)
        · rcases List.mem_cons.mp member with rfl | later
          · exact .inr List.mem_cons_self
          · exact (ih later).imp_right (List.mem_cons_of_mem _)

theorem sorted_insert (k : Key) (v : Value) {entries : List (Key × Value)}
    (sorted : entries.Pairwise fun a b => a.1 < b.1) :
    (insert k v entries).Pairwise fun a b => a.1 < b.1 := by
  induction entries with
  | nil => exact List.pairwise_singleton _ _
  | cons a rest ih =>
      obtain ⟨above, restSorted⟩ := List.pairwise_cons.mp sorted
      unfold insert
      split
      · rename_i below
        refine List.pairwise_cons.mpr ⟨fun b member => ?_, sorted⟩
        rcases List.mem_cons.mp member with rfl | later
        · exact below
        · exact below.trans (above b later)
      · rename_i notBelow
        split
        · rename_i same
          exact List.pairwise_cons.mpr ⟨fun b member => same ▸ above b member, restSorted⟩
        · rename_i other
          refine List.pairwise_cons.mpr ⟨fun b member => ?_, ih restSorted⟩
          rcases mem_insert member with rfl | later
          · exact lt_of_le_of_ne (not_lt.mp notBelow) (Ne.symm other)
          · exact above b later

def set (m : OrdMap Key Value) (k : Key) (v : Value) : OrdMap Key Value :=
  ⟨insert k v m.entries, sorted_insert k v m.sorted⟩

/-- The value under a key, which is added with a default if it is not there. -/
def touch (m : OrdMap Key Value) (k : Key) (default : Value) : OrdMap Key Value :=
  if m.contains k then m else m.set k default

/-- The entries of `n` set in `m`. -/
def merge (m n : OrdMap Key Value) : OrdMap Key Value :=
  n.entries.foldl (fun m e => m.set e.1 e.2) m

def mapVal {Value' : Type w} (f : Value → Value') (m : OrdMap Key Value) : OrdMap Key Value' :=
  ⟨m.entries.map fun e => (e.1, f e.2), List.pairwise_map.mpr m.sorted⟩

/-! ## Lookup -/

theorem find_insert (k k' : Key) (v : Value) (entries : List (Key × Value)) :
    find k' (insert k v entries) = if k = k' then some v else find k' entries := by
  induction entries with
  | nil => rfl
  | cons a rest ih =>
      unfold insert
      split
      · rfl
      · split
        · rename_i same
          simp only [find, ← same]
          split <;> rfl
        · rename_i other
          simp only [find, ih]
          by_cases here : a.1 = k'
          · simp [here, show k ≠ k' from here ▸ other]
          · simp [here]

@[simp] theorem get?_empty (k : Key) : (empty : OrdMap Key Value).get? k = none := rfl

theorem get?_set (m : OrdMap Key Value) (k k' : Key) (v : Value) :
    (m.set k v).get? k' = if k = k' then some v else m.get? k' := find_insert k k' v m.entries

@[simp] theorem get?_set_self (m : OrdMap Key Value) (k : Key) (v : Value) :
    (m.set k v).get? k = some v := by rw [get?_set, if_pos rfl]

theorem contains_set_self {m : OrdMap Key Value} {k : Key} (known : m.contains k = true)
    (v : Value) (k' : Key) : (m.set k v).contains k' = m.contains k' := by
  unfold contains
  rw [get?_set]
  split
  · rename_i same
    rw [← same]
    exact known.symm
  · rfl

theorem get?_touch (m : OrdMap Key Value) (k k' : Key) (default : Value) :
    (m.touch k default).get? k' =
      if k = k' then some ((m.get? k').getD default) else m.get? k' := by
  unfold touch contains
  cases found : m.get? k with
  | none =>
      rw [Option.isSome_none, if_neg (by decide), get?_set]
      split
      · rename_i same
        rw [← same, found]
        rfl
      · rfl
  | some v =>
      rw [Option.isSome_some, if_pos rfl]
      split
      · rename_i same
        rw [← same, found]
        rfl
      · rfl

/-- An entry of a sorted list is the one under its key. -/
theorem find_eq_some {k : Key} {v : Value} {entries : List (Key × Value)}
    (sorted : entries.Pairwise fun a b => a.1 < b.1) :
    find k entries = some v ↔ (k, v) ∈ entries := by
  induction entries with
  | nil => exact ⟨nofun, nofun⟩
  | cons a rest ih =>
      obtain ⟨above, restSorted⟩ := List.pairwise_cons.mp sorted
      unfold find
      split
      · rename_i same
        subst same
        constructor
        · intro found
          cases found
          exact List.mem_cons_self
        · intro member
          rcases List.mem_cons.mp member with same | later
          · rw [← same]
          · exact absurd (above _ later) (lt_irrefl _)
      · rename_i other
        rw [ih restSorted, List.mem_cons]
        exact ⟨.inr, fun member => member.resolve_left fun same => other (same ▸ rfl)⟩

theorem get?_eq_some {m : OrdMap Key Value} {k : Key} {v : Value} :
    m.get? k = some v ↔ (k, v) ∈ m.entries := find_eq_some m.sorted

theorem contains_iff {m : OrdMap Key Value} {k : Key} :
    m.contains k = true ↔ ∃ v, m.get? k = some v := Option.isSome_iff_exists

/-- **Two maps with the same values are one.** -/
theorem ext_get? {m n : OrdMap Key Value} (same : ∀ k, m.get? k = n.get? k) : m = n := by
  obtain ⟨entries, sorted⟩ := m
  obtain ⟨entries', sorted'⟩ := n
  have members : ∀ e, e ∈ entries ↔ e ∈ entries' := fun ⟨k, v⟩ => by
    rw [← find_eq_some sorted, ← find_eq_some sorted']
    exact Eq.congr_left (same k)
  have nodup : ∀ {l : List (Key × Value)}, l.Pairwise (fun a b => a.1 < b.1) → l.Nodup :=
    fun sorted => sorted.imp fun below same => absurd (same ▸ below) (lt_irrefl _)
  have perm : entries.Perm entries' :=
    (List.perm_ext_iff_of_nodup (nodup sorted) (nodup sorted')).mpr members
  have : entries = entries' := perm.eq_of_pairwise
    (fun (a b : Key × Value) _ _ below above => absurd (lt_trans below above) (lt_irrefl a.1))
    sorted sorted'
  subst this
  rfl

theorem get?_mapVal {Value' : Type w} (f : Value → Value') (m : OrdMap Key Value) (k : Key) :
    (m.mapVal f).get? k = (m.get? k).map f := by
  obtain ⟨entries, sorted⟩ := m
  show find k (entries.map fun e => (e.1, f e.2)) = (find k entries).map f
  clear sorted
  induction entries with
  | nil => rfl
  | cons a rest ih =>
      simp only [List.map_cons, find, ih]
      split <;> rfl

/-! ## Searching -/

/-- **What is found first has the least key.** -/
theorem find?_eq_some_iff {m : OrdMap Key Value} {p : Key × Value → Bool} {e : Key × Value} :
    m.entries.find? p = some e ↔
      e ∈ m.entries ∧ p e = true ∧ ∀ other ∈ m.entries, p other = true → e.1 ≤ other.1 := by
  have least : ∀ {e}, m.entries.find? p = some e →
      ∀ other ∈ m.entries, p other = true → e.1 ≤ other.1 := by
    intro e found other member holds
    obtain ⟨-, before, after, split, none_⟩ := List.find?_eq_some_iff_append.mp found
    have sorted := m.sorted
    rw [split] at member sorted
    rcases List.mem_append.mp member with early | late
    · exact absurd holds (by simpa using none_ other early)
    · rcases List.mem_cons.mp late with rfl | later
      · exact le_refl _
      · exact ((List.pairwise_cons.mp (List.pairwise_append.mp sorted).2.1).1 other later).le
  constructor
  · intro found
    exact ⟨List.mem_of_find?_eq_some found, List.find?_some found, least found⟩
  · rintro ⟨member, holds, first⟩
    obtain ⟨e', found⟩ := Option.isSome_iff_exists.mp
      (List.find?_isSome.mpr ⟨e, member, holds⟩)
    have same : e'.1 = e.1 := le_antisymm (least found e member holds)
      (first e' (List.mem_of_find?_eq_some found) (List.find?_some found))
    have there : m.get? e'.1 = some e'.2 := get?_eq_some.mpr (List.mem_of_find?_eq_some found)
    rw [same, get?_eq_some.mpr member] at there
    rw [found]
    exact congrArg some (Prod.ext same (Option.some.inj there).symm)

/-! ## Merging -/

theorem get?_foldl_set {entries : List (Key × Value)}
    (sorted : entries.Pairwise fun a b => a.1 < b.1) (m : OrdMap Key Value) (k : Key) :
    (entries.foldl (fun m e => m.set e.1 e.2) m).get? k = (find k entries).or (m.get? k) := by
  induction entries generalizing m with
  | nil => rfl
  | cons a rest ih =>
      obtain ⟨above, restSorted⟩ := List.pairwise_cons.mp sorted
      rw [List.foldl_cons, ih restSorted, get?_set, find]
      split
      · rename_i same
        have none_ : find k rest = none := by
          rw [Option.eq_none_iff_forall_ne_some]
          intro v found
          have below := above _ ((find_eq_some restSorted).mp found)
          exact absurd (same ▸ below) (lt_irrefl _)
        rw [none_]
        rfl
      · rfl

theorem get?_merge (m n : OrdMap Key Value) (k : Key) :
    (m.merge n).get? k = (n.get? k).or (m.get? k) := get?_foldl_set n.sorted m k

@[simp] theorem merge_empty (m : OrdMap Key Value) : m.merge empty = m := rfl

@[simp] theorem empty_merge (m : OrdMap Key Value) : empty.merge m = m :=
  ext_get? fun k => by rw [get?_merge, get?_empty, Option.or_none]

/-- A map is built again from its entries, one after the other. -/
theorem foldlM_set {M : Type (max u v) → Type w} [Monad M] [LawfulMonad M] {Written : Type v}
    {put : Value → Written} {step : OrdMap Key Value → Key × Written → M (OrdMap Key Value)}
    {m : OrdMap Key Value} (sets : ∀ acc, ∀ e ∈ m.entries,
      step acc (e.1, put e.2) = pure (acc.set e.1 e.2)) :
    (m.mapVal put).entries.foldlM step empty = pure m := by
  have folded : ∀ (entries : List (Key × Value)) (acc : OrdMap Key Value),
      (∀ acc, ∀ e ∈ entries, step acc (e.1, put e.2) = pure (acc.set e.1 e.2)) →
      (entries.map fun e => (e.1, put e.2)).foldlM step acc =
        pure (entries.foldl (fun m e => m.set e.1 e.2) acc) := by
    intro entries
    induction entries with
    | nil => exact fun _ _ => rfl
    | cons e rest ih =>
        intro acc sets
        rw [List.map_cons, List.foldlM_cons, sets acc e List.mem_cons_self, pure_bind]
        exact ih _ fun acc e member => sets acc e (List.mem_cons_of_mem _ member)
  exact (folded m.entries empty sets).trans (congrArg pure (empty_merge m))

/-- **Merging leaves nothing of a map exactly when the other has all its keys.** -/
theorem merge_eq_right_iff {m n : OrdMap Key Value} :
    m.merge n = n ↔ ∀ k, m.contains k = true → n.contains k = true := by
  constructor
  · intro same k inFirst
    obtain ⟨v, found⟩ := contains_iff.mp inFirst
    have value := get?_merge m n k
    rw [same, found] at value
    unfold contains
    rw [value]
    cases n.get? k <;> rfl
  · intro keys
    refine ext_get? fun k => ?_
    rw [get?_merge]
    cases inSecond : n.get? k with
    | some v => rfl
    | none =>
        cases inFirst : m.get? k with
        | none => rfl
        | some v =>
            have := keys k (contains_iff.mpr ⟨v, inFirst⟩)
            rw [contains, inSecond] at this
            cases this

end OrdMap

end Piac.Theory
