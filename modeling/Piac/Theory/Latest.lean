/-
# Theory.Latest — the last entry under each key of a log

A log is a list of entries in the order in which they were made, `latest` the value of the
last one under a key.

* `latest_isSome`: there is a value exactly if there is an entry;
* `get?_foldl_set`: a map in which the entries are set one after the other has the latest
  values;
* `latest_code_iff`: if what is kept is only a code of each key, the latest value under the code
  of a key is that of the key exactly if the key is `Unshadowed`.
-/
import Piac.Theory.OrdMap

namespace Piac.Theory.Latest

set_option autoImplicit false

universe u v w

variable {Key : Type u} {Value : Type v} [DecidableEq Key]

/-- The value of the last entry under a key. -/
def latest (k : Key) : List (Key × Value) → Option Value
  | [] => none
  | e :: rest => (latest k rest).or (if e.1 = k then some e.2 else none)

theorem latest_map {Value' : Type w} (g : Value → Value') (k : Key) (log : List (Key × Value)) :
    latest k (log.map fun e => (e.1, g e.2)) = (latest k log).map g := by
  induction log with
  | nil => rfl
  | cons e rest ih =>
      rw [List.map_cons, latest, ih, latest, Option.map_or]
      split
      · rfl
      · rfl

theorem mem_of_latest {k : Key} {v : Value} {log : List (Key × Value)}
    (last : latest k log = some v) : (k, v) ∈ log := by
  induction log with
  | nil => cases last
  | cons e rest ih =>
      rw [latest, Option.or_eq_some_iff] at last
      rcases last with later | ⟨-, here⟩
      · exact List.mem_cons_of_mem _ (ih later)
      · split at here
        · rename_i same
          cases here
          rw [← same]
          exact List.mem_cons_self
        · cases here

theorem latest_isSome {k : Key} {log : List (Key × Value)} :
    (latest k log).isSome = true ↔ ∃ v, (k, v) ∈ log := by
  constructor
  · intro some_
    obtain ⟨v, last⟩ := Option.isSome_iff_exists.mp some_
    exact ⟨v, mem_of_latest last⟩
  · rintro ⟨v, member⟩
    induction log with
    | nil => cases member
    | cons e rest ih =>
        rw [latest, Option.isSome_or]
        rcases List.mem_cons.mp member with rfl | later
        · rw [if_pos rfl]
          exact Bool.or_true _
        · rw [ih later]
          rfl

/-- **A map in which a log is set has its latest values.** -/
theorem get?_foldl_set {Key : Type u} {Value : Type v} [LinearOrder Key] [DecidableEq Key]
    (log : List (Key × Value)) (m : OrdMap Key Value) (k : Key) :
    (log.foldl (fun m e => m.set e.1 e.2) m).get? k = (latest k log).or (m.get? k) := by
  induction log generalizing m with
  | nil => rfl
  | cons e rest ih =>
      rw [List.foldl_cons, ih, OrdMap.get?_set, latest, Option.or_assoc]
      by_cases here : e.1 = k
      · rw [if_pos here, if_pos here]
        rfl
      · rw [if_neg here, if_neg here]
        rfl

/-! ## Codes of keys -/

section Codes

variable {Code : Type w} [DecidableEq Code] (f : Key → Code)

/-- The log with the code of each key in its place. -/
def encoded (log : List (Key × Value)) : List (Code × Value) := log.map fun e => (f e.1, e.2)

/-- Whenever another key with the same code has an entry, the key has a later one. -/
def Unshadowed (k : Key) : List (Key × Value) → Prop
  | [] => True
  | e :: rest => (f e.1 = f k → e.1 = k ∨ ∃ e' ∈ rest, e'.1 = k) ∧ Unshadowed k rest

omit [DecidableEq Key] [DecidableEq Code] in
theorem mem_encoded {k : Key} {v : Value} {log : List (Key × Value)} (member : (k, v) ∈ log) :
    (f k, v) ∈ encoded f log := List.mem_map.mpr ⟨(k, v), member, rfl⟩

omit [DecidableEq Key] in
/-- The value under a code is that of an entry. -/
theorem mem_values_of_latest {c : Code} {v : Value} {log : List (Key × Value)}
    (last : latest c (encoded f log) = some v) : v ∈ log.map Prod.snd := by
  obtain ⟨e, member, same⟩ := List.mem_map.mp (mem_of_latest last)
  cases same
  exact List.mem_map.mpr ⟨e, member, rfl⟩

theorem latest_code_cons_iff {k : Key} {e : Key × Value} {rest : List (Key × Value)}
    (apart : e.2 ∉ rest.map Prod.snd)
    (ih : latest (f k) (encoded f rest) = latest k rest ↔ Unshadowed f k rest) :
    latest (f k) (encoded f (e :: rest)) = latest k (e :: rest) ↔ Unshadowed f k (e :: rest) := by
  show (latest (f k) (encoded f rest)).or (if f e.1 = f k then some e.2 else none) =
    (latest k rest).or (if e.1 = k then some e.2 else none) ↔ _ ∧ Unshadowed f k rest
  rw [← ih]
  cases last : latest k rest with
  | some v =>
      -- a later entry of the key decides
      have member := mem_of_latest last
      have coded : (latest (f k) (encoded f rest)).isSome = true :=
        latest_isSome.mpr ⟨v, mem_encoded f member⟩
      obtain ⟨v', last'⟩ := Option.isSome_iff_exists.mp coded
      rw [last', Option.some_or, Option.some_or]
      exact (and_iff_right fun _ => .inr ⟨_, member, rfl⟩).symm
  | none =>
      have nowhere : ¬ ∃ e' ∈ rest, e'.1 = k := by
        rintro ⟨⟨k', v⟩, member, rfl⟩
        have some_ := latest_isSome.mpr ⟨v, member⟩
        rw [last] at some_
        cases some_
      rw [Option.none_or]
      by_cases here : e.1 = k
      · rw [if_pos here, if_pos (congrArg f here), and_iff_right fun _ => Or.inl here]
        cases coded : latest (f k) (encoded f rest) with
        | none => exact iff_of_true rfl rfl
        | some v =>
            refine iff_of_false (fun same => apart ?_) nofun
            cases same
            exact mem_values_of_latest f coded
      · rw [if_neg here]
        by_cases shadows : f e.1 = f k
        · rw [if_pos shadows]
          refine iff_of_false (fun same => ?_) fun ⟨first, _⟩ => (first shadows).elim here nowhere
          rw [Option.or_eq_none_iff] at same
          cases same.2
        · rw [if_neg shadows, Option.or_none, and_iff_right fun same => absurd same shadows]

/-- **What is kept under the code of a key is the latest value of the key exactly if** the key is
unshadowed. -/
theorem latest_code_iff {k : Key} {log : List (Key × Value)} (apart : (log.map Prod.snd).Nodup) :
    latest (f k) (encoded f log) = latest k log ↔ Unshadowed f k log := by
  induction log with
  | nil => exact iff_of_true rfl trivial
  | cons e rest ih =>
      obtain ⟨first, later⟩ := List.nodup_cons.mp apart
      exact latest_code_cons_iff f first (ih later)

end Codes

end Piac.Theory.Latest
