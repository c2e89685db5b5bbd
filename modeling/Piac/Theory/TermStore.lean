/-
# Theory.TermStore — documents indexed by terms

A store is a list of documents in the order of their identifiers; a document
carries data and the terms it is indexed by. `replace t d` puts `d` in the place
of the first document indexed by `t` and drops the others, or appends `d` if
there is none; `delete t` drops every document indexed by `t`; `postings t` lists
the documents indexed by `t`.

A store is `Keyed` when, of a class of terms set aside for keys, every document
carries exactly the key of its data, and no two documents share a key. Both
updates keep that (`Keyed.replace`, `Keyed.delete`), and under it a key finds its
document and no other (`Keyed.postings`).
-/
import Mathlib.Data.List.Basic

namespace Piac.Theory.TermStore

set_option autoImplicit false

universe u v

/-- A document: its data and the terms it is indexed by. -/
structure Doc (Data : Type u) (Term : Type v) where
  data : Data
  terms : List Term
  deriving DecidableEq

variable {Data : Type u} {Term : Type v} [DecidableEq Term]

def postings (t : Term) (docs : List (Doc Data Term)) : List (Doc Data Term) :=
  docs.filter fun d => decide (t ∈ d.terms)

def delete (t : Term) (docs : List (Doc Data Term)) : List (Doc Data Term) :=
  docs.filter fun d => decide (t ∉ d.terms)

def replace (t : Term) (doc : Doc Data Term) : List (Doc Data Term) → List (Doc Data Term)
  | [] => [doc]
  | d :: rest => if t ∈ d.terms then doc :: delete t rest else d :: replace t doc rest

@[simp] theorem mem_delete {t : Term} {d : Doc Data Term} {docs : List (Doc Data Term)} :
    d ∈ delete t docs ↔ d ∈ docs ∧ t ∉ d.terms := by
  simp [delete]

@[simp] theorem mem_postings {t : Term} {d : Doc Data Term} {docs : List (Doc Data Term)} :
    d ∈ postings t docs ↔ d ∈ docs ∧ t ∈ d.terms := by
  simp [postings]

theorem length_postings_add_delete (t : Term) (docs : List (Doc Data Term)) :
    (postings t docs).length + (delete t docs).length = docs.length := by
  have split := @List.length_eq_length_filter_add _ docs fun d => decide (t ∈ d.terms)
  simp only [postings, delete, decide_not]
  exact split.symm

theorem mem_replace {t : Term} {d doc : Doc Data Term} {docs : List (Doc Data Term)} :
    d ∈ replace t doc docs ↔ d = doc ∨ (d ∈ docs ∧ t ∉ d.terms) := by
  induction docs with
  | nil => simp [replace]
  | cons e rest ih =>
      by_cases indexed : t ∈ e.terms
      · simp only [replace, indexed, if_true, List.mem_cons, mem_delete]
        constructor
        · rintro (rfl | h)
          · exact .inl rfl
          · exact .inr ⟨.inr h.1, h.2⟩
        · rintro (rfl | ⟨rfl | h, fresh⟩)
          · exact .inl rfl
          · exact absurd indexed fresh
          · exact .inr ⟨h, fresh⟩
      · simp only [replace, indexed, if_false, List.mem_cons, ih]
        constructor
        · rintro (rfl | rfl | h)
          · exact .inr ⟨.inl rfl, indexed⟩
          · exact .inl rfl
          · exact .inr ⟨.inr h.1, h.2⟩
        · rintro (rfl | ⟨rfl | h, fresh⟩)
          · exact .inr (.inl rfl)
          · exact .inl rfl
          · exact .inr (.inr ⟨h, fresh⟩)

/-! ## Keyed stores -/

section Keyed

variable (isKey : Term → Prop) (key : Data → Term)

/-- Every document carries the key of its data and no other key, and keys are
not shared. -/
structure Keyed (docs : List (Doc Data Term)) : Prop where
  carries : ∀ d ∈ docs, ∀ t, isKey t → (t ∈ d.terms ↔ t = key d.data)
  distinct : docs.Pairwise fun d e => key d.data ≠ key e.data

variable {isKey key}

omit [DecidableEq Term] in
theorem Keyed.nil : Keyed isKey key ([] : List (Doc Data Term)) :=
  ⟨by simp, .nil⟩

theorem Keyed.delete {docs : List (Doc Data Term)} (keyed : Keyed isKey key docs) (t : Term) :
    Keyed isKey key (delete t docs) :=
  ⟨fun d member => keyed.carries d (mem_delete.mp member).1, keyed.distinct.filter _⟩

/-- Replacing by a key keeps a store keyed, when the new document carries that
key and no other. -/
theorem Keyed.replace {docs : List (Doc Data Term)} (keyed : Keyed isKey key docs)
    {doc : Doc Data Term} (isKey_ : isKey (key doc.data))
    (carries : ∀ t, isKey t → (t ∈ doc.terms ↔ t = key doc.data)) :
    Keyed isKey key (replace (key doc.data) doc docs) := by
  refine ⟨fun d member => ?_, ?_⟩
  · rcases mem_replace.mp member with rfl | ⟨old, -⟩
    · exact carries
    · exact keyed.carries d old
  · obtain ⟨old, distinct⟩ := keyed
    induction docs with
    | nil => simp [TermStore.replace]
    | cons e rest ih =>
        obtain ⟨apart, restDistinct⟩ := List.pairwise_cons.mp distinct
        have eCarries := old e (by simp) _ isKey_
        by_cases indexed : key doc.data ∈ e.terms
        · -- `e` gives way, and what is left of the tail has other keys
          simp only [TermStore.replace, indexed, if_true, List.pairwise_cons]
          refine ⟨fun d member same => ?_, restDistinct.filter _⟩
          obtain ⟨inRest, fresh⟩ := mem_delete.mp member
          exact fresh ((old d (by simp [inRest]) _ isKey_).mpr same)
        · simp only [TermStore.replace, indexed, if_false, List.pairwise_cons]
          refine ⟨fun d member same => ?_, ih (fun d h => old d (by simp [h])) restDistinct⟩
          rcases mem_replace.mp member with rfl | ⟨inRest, -⟩
          · exact indexed (eCarries.mpr same.symm)
          · exact apart d inRest same

/-- Under a key, a keyed store holds the document with that key, if any. -/
theorem Keyed.postings {docs : List (Doc Data Term)} (keyed : Keyed isKey key docs)
    {d : Doc Data Term} (member : d ∈ docs) (isKey_ : isKey (key d.data)) :
    postings (key d.data) docs = [d] := by
  obtain ⟨old, distinct⟩ := keyed
  induction docs with
  | nil => cases member
  | cons e rest ih =>
      obtain ⟨apart, restDistinct⟩ := List.pairwise_cons.mp distinct
      have eCarries := old e (by simp) _ isKey_
      rcases List.mem_cons.mp member with rfl | inRest
      · have none_ : TermStore.postings (key d.data) rest = [] := by
          rw [TermStore.postings, List.filter_eq_nil_iff]
          intro f inRest indexed
          exact apart f inRest
            ((old f (by simp [inRest]) _ isKey_).mp (of_decide_eq_true indexed))
        rw [TermStore.postings, List.filter_cons_of_pos (by simpa using eCarries.mpr rfl)]
        exact congrArg _ none_
      · have foreign : key d.data ∉ e.terms :=
          fun indexed => apart d inRest (eCarries.mp indexed).symm
        rw [TermStore.postings, List.filter_cons_of_neg (by simpa using foreign)]
        exact ih inRest (fun f h => old f (by simp [h])) restDistinct

/-- In a keyed store two documents with one key are one document. -/
theorem Keyed.unique {docs : List (Doc Data Term)} (keyed : Keyed isKey key docs)
    {d e : Doc Data Term} (hd : d ∈ docs) (he : e ∈ docs) (isKey_ : isKey (key d.data))
    (same : key d.data = key e.data) : d = e := by
  have first := keyed.postings hd isKey_
  have second := keyed.postings he (same ▸ isKey_)
  rw [same] at first
  exact (List.cons.inj (first.symm.trans second)).1

end Keyed

end Piac.Theory.TermStore
