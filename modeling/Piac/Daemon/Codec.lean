/-
# Daemon.Codec — documents and lists of documents through their text

`Documents::serialize` writes a list as an array of objects, and both classes read
back what the writer was handed, so the codec is decided by what `c_str()` keeps of
each string.

* `codec_round_trips`: a document, or a list of them, comes back exactly when no
  string of it has a zero byte, and two documents share an entry exactly when they
  agree up to the first zero byte of each string.
* `indexed_round_trips`: the strings of a file come from C strings, so of the
  documents of `index_db` it is the author that decides.
-/
import Piac.Daemon.Db
import Piac.Daemon.Reference
import Piac.Theory.JsonTree

namespace Piac

set_option autoImplicit false

open Piac.Theory.CppString Piac.Theory.Json

variable {X : Platform}

/-- The reader finds the objects of an array, like a single object. -/
def Platform.ReadsLists (X : Platform) : Prop :=
  ∀ items : List (List (Bytes × Value X.Num)),
    (∀ members ∈ items, ∀ m ∈ members, m.2.Scalar) →
      X.parse (X.write (.arr (items.map .obj))) =
        some (.arr (items.map fun members =>
          .obj (members.map fun m => (m.1, m.2.mapNum X.reread))))

/-- The number parser undoes the number printer. -/
def Platform.ExactNumbers (X : Platform) : Prop := ∀ x, X.reread x = x

namespace Document

variable (X) in
/-- `JSONBase::serialize` of a list: the text of an array. -/
def serializeAll (docs : List (Document X.Num)) : Bytes :=
  cstr (X.write (.arr (docs.map fun d => .obj (members X d))))

/-! ## Strings -/

/-- The fields that are written as strings, in the order of the writer. -/
def strings {Num : Type} (d : Document Num) : List Bytes :=
  [d.title, d.author, d.description, d.category, d.condition, d.shipping, d.format, d.location,
    d.keywords]

/-- No string has a zero byte. -/
def NulFree {Num : Type} (d : Document Num) : Prop := ∀ s ∈ d.strings, 0 ∉ s

instance {Num : Type} (d : Document Num) : Decidable d.NulFree :=
  inferInstanceAs (Decidable (∀ s ∈ d.strings, 0 ∉ s))

/-- The same id and price, and the same strings as far as `c_str()` shows them. -/
def SameUpToNul {Num : Type} (d e : Document Num) : Prop :=
  d.id = e.id ∧ d.price = e.price ∧ d.strings.map cstr = e.strings.map cstr

theorem strings_stored (d : Document X.Num) : (stored X d).strings = d.strings.map cstr := rfl

/-- A document is its id, its price and its strings. -/
theorem eq_of_strings {Num : Type} {d e : Document Num} (id : d.id = e.id)
    (price : d.price = e.price) (strings : d.strings = e.strings) : d = e := by
  cases d
  cases e
  simp only [Document.strings, List.cons.injEq, and_true] at strings
  obtain ⟨title, author, description, category, condition, shipping, format, location, keywords⟩ :=
    strings
  cases id
  cases price
  cases title
  cases author
  cases description
  cases category
  cases condition
  cases shipping
  cases format
  cases location
  cases keywords
  rfl

theorem map_cstr_eq_self {strings : List Bytes} :
    strings.map cstr = strings ↔ ∀ s ∈ strings, 0 ∉ s := by
  induction strings with
  | nil => simp
  | cons s rest ih =>
      simp only [List.map_cons, List.cons.injEq, cstr_eq_self, ih, List.mem_cons, forall_eq_or_imp]

/-- **What is stored of a document is the document exactly when it has no zero byte.** -/
theorem stored_eq_self (exact_ : X.ExactNumbers) {d : Document X.Num} :
    stored X d = d ↔ d.NulFree := by
  constructor
  · intro same
    have strings := congrArg Document.strings same
    rw [strings_stored] at strings
    exact map_cstr_eq_self.mp strings
  · intro free
    apply eq_of_strings
    · rfl
    · exact exact_ d.price
    · rw [strings_stored]
      exact map_cstr_eq_self.mpr free

theorem stored_eq_stored (exact_ : X.ExactNumbers) {d e : Document X.Num} :
    stored X d = stored X e ↔ SameUpToNul d e := by
  constructor
  · intro same
    have price : X.reread d.price = X.reread e.price := congrArg Document.price same
    rw [exact_, exact_] at price
    have strings := congrArg Document.strings same
    rw [strings_stored, strings_stored] at strings
    have id : (stored X d).id = (stored X e).id := congrArg Document.id same
    exact ⟨id, price, strings⟩
  · rintro ⟨id, price, strings⟩
    apply eq_of_strings
    · exact id
    · exact congrArg X.reread price
    · rw [strings_stored, strings_stored, strings]

/-! ## One document -/

/-- The writer is handed no more than what is stored. -/
theorem members_of_sameUpToNul {d e : Document X.Num} (same : SameUpToNul d e) :
    members X d = members X e := by
  obtain ⟨id, price, strings⟩ := same
  simp only [Document.strings, List.map_cons, List.map_nil, List.cons.injEq, and_true] at strings
  obtain ⟨title, author, description, category, condition, shipping, format, location, keywords⟩ :=
    strings
  simp only [members, id, price, title, author, description, category, condition, shipping, format,
    location, keywords]

theorem serialize_eq_serialize (exact_ : X.ExactNumbers) {d e : Document X.Num} :
    serialize X d = serialize X e ↔ SameUpToNul d e := by
  constructor
  · intro same
    have back := congrArg (deserialize X) same
    rw [deserialize_serialize, deserialize_serialize] at back
    apply (stored_eq_stored exact_).mp
    injection back with back
    injection back
  · intro same
    rw [serialize, serialize, members_of_sameUpToNul same]

theorem nulFree_sameUpToNul {Num : Type} {d e : Document Num} (here : d.NulFree) (there : e.NulFree)
    (same : SameUpToNul d e) : d = e := by
  obtain ⟨id, price, strings⟩ := same
  rw [map_cstr_eq_self.mpr here, map_cstr_eq_self.mpr there] at strings
  exact eq_of_strings id price strings

/-! ## A list -/

theorem scalar_members (d : Document X.Num) : ∀ m ∈ members X d, m.2.Scalar := by
  have id := @Value.scalar_int32 X.Num d.id
  simpa [members, Value.Scalar] using id

theorem initDocument_serializeAll (lists : X.ReadsLists) (docs : List (Document X.Num)) :
    initDocument X (serializeAll X docs) = some (.arr (docs.map reread)) := by
  have whole : serializeAll X docs = X.write (.arr ((docs.map (members X)).map .obj)) := by
    rw [serializeAll, List.map_map]
    exact cstr_eq_self.mpr (X.zero_notMem_write _)
  have scalars : ∀ members_ ∈ docs.map (members X), ∀ m ∈ members_, m.2.Scalar := by
    intro members_ member
    obtain ⟨d, -, rfl⟩ := List.mem_map.mp member
    exact scalar_members d
  rw [initDocument, if_neg (by rw [whole]; exact X.write_ne_nil _), whole,
    cstr_eq_self.mpr (X.zero_notMem_write _), lists _ scalars, List.map_map]
  rfl

theorem mapM_reread (docs : List (Document X.Num)) :
    (docs.map reread).mapM (ofValue X) = .ok (docs.map (stored X)) := by
  induction docs with
  | nil => rfl
  | cons d rest ih => rw [List.map_cons, List.mapM_cons, ofValue_reread, ih]; rfl

/-- **What a list becomes on the way through its text.** -/
theorem deserializeAll_serializeAll (lists : X.ReadsLists) (docs : List (Document X.Num)) :
    deserializeAll X (serializeAll X docs) = .ok (docs.map (stored X)) := by
  rw [deserializeAll, initDocument_serializeAll lists]
  exact mapM_reread docs

theorem map_stored_eq_self (exact_ : X.ExactNumbers) {docs : List (Document X.Num)} :
    docs.map (stored X) = docs ↔ ∀ d ∈ docs, d.NulFree := by
  induction docs with
  | nil => simp
  | cons d rest ih =>
      simp only [List.map_cons, List.cons.injEq, stored_eq_self exact_, ih, List.mem_cons,
        forall_eq_or_imp]

/-! ## What a file can hold -/

theorem getString_nulFree {obj : Value X.Num} {name : String} {s : Bytes}
    (read : getString X obj name = .ok s) : 0 ∉ s := by
  unfold getString at read
  cases value : (obj.member (bytes name)).bind Value.asString with
  | none => rw [value] at read; cases read
  | some text =>
      rw [value] at read
      cases read
      exact zero_notMem_cstr text

/-- A document that was read has no zero byte. -/
theorem ofValue_nulFree {obj : Value X.Num} {d : Document X.Num} (read : ofValue X obj = .ok d) :
    d.NulFree := by
  simp only [ofValue, bind_eq_ok, pure_eq_ok] at read
  obtain ⟨id, -, title, hTitle, author, hAuthor, description, hDescription, price, -, category,
    hCategory, condition, hCondition, shipping, hShipping, format, hFormat, location, hLocation,
    keywords, hKeywords, rfl⟩ := read
  intro s member
  simp only [strings, List.mem_cons, List.not_mem_nil, or_false] at member
  rcases member with rfl | rfl | rfl | rfl | rfl | rfl | rfl | rfl | rfl
  all_goals first
    | exact getString_nulFree hTitle
    | exact getString_nulFree hAuthor
    | exact getString_nulFree hDescription
    | exact getString_nulFree hCategory
    | exact getString_nulFree hCondition
    | exact getString_nulFree hShipping
    | exact getString_nulFree hFormat
    | exact getString_nulFree hLocation
    | exact getString_nulFree hKeywords

theorem mapM_ofValue_nulFree {items : List (Value X.Num)} {docs : List (Document X.Num)}
    (read : items.mapM (ofValue X) = .ok docs) : ∀ d ∈ docs, d.NulFree := by
  induction items generalizing docs with
  | nil => cases read; simp
  | cons obj rest ih =>
      rw [List.mapM_cons] at read
      simp only [bind_eq_ok, pure_eq_ok] at read
      obtain ⟨d, first, later, rest_, rfl⟩ := read
      intro e member
      rcases List.mem_cons.mp member with rfl | member
      · exact ofValue_nulFree first
      · exact ih rest_ e member

theorem deserializeAll_nulFree {content : Bytes} {docs : List (Document X.Num)}
    (read : deserializeAll X content = .ok docs) : ∀ d ∈ docs, d.NulFree := by
  unfold deserializeAll at read
  split at read
  · cases read; simp
  · exact mapM_ofValue_nulFree read
  · rename_i obj _ _
    obtain ⟨d, first, last⟩ := bind_eq_ok.mp read
    cases last
    intro e member
    rw [List.mem_singleton.mp member]
    exact ofValue_nulFree first

end Document

open Document

/-- **Of the documents of a file it is the author that decides.** -/
theorem indexed_round_trips (exact_ : X.ExactNumbers) {content author : Bytes}
    {docs : List (Document X.Num)} (read : deserializeAll X content = .ok docs)
    {d : Document X.Num} (member : d ∈ docs) :
    deserialize X (entryOf X author d) = .ok (some { d with author := author }) ↔ 0 ∉ author := by
  have free := deserializeAll_nulFree read d member
  rw [entryOf, deserialize_serialize, Except.ok.injEq, Option.some.injEq, stored_eq_self exact_]
  simp only [NulFree, strings, List.mem_cons, List.not_mem_nil, or_false, forall_eq_or_imp,
    forall_eq] at free ⊢
  constructor
  · intro all
    exact all.2.1
  · intro clean
    exact ⟨free.1, clean, free.2.2⟩

/-- **The document codec.** A document and a list come back exactly when they have no
zero byte; documents that differ share an entry exactly when they agree up to the
first zero byte of each string, so never when they have none. -/
theorem codec_round_trips (exact_ : X.ExactNumbers) (lists : X.ReadsLists) :
    (∀ d : Document X.Num, deserialize X (serialize X d) = .ok (some d) ↔ d.NulFree) ∧
    (∀ docs : List (Document X.Num),
      deserializeAll X (serializeAll X docs) = .ok docs ↔ ∀ d ∈ docs, d.NulFree) ∧
    (∀ d e : Document X.Num,
      (d ≠ e → serialize X d ≠ serialize X e) ↔ (d ≠ e → ¬ SameUpToNul d e)) ∧
    ∀ d e : Document X.Num, d.NulFree → e.NulFree → d ≠ e → serialize X d ≠ serialize X e := by
  refine ⟨fun d => ?_, fun docs => ?_, fun d e => ?_, fun d e here there differ shared => ?_⟩
  · rw [deserialize_serialize, Except.ok.injEq, Option.some.injEq, stored_eq_self exact_]
  · rw [deserializeAll_serializeAll lists, Except.ok.injEq, map_stored_eq_self exact_]
  · rw [ne_eq (serialize X d), serialize_eq_serialize exact_]
  · have same := (serialize_eq_serialize exact_).mp shared
    exact differ (nulFree_sameUpToNul here there same)

/-! ## On a platform -/

section Printing

open Reference

/-- The platform of `reference` with a text for every value. -/
def printing : Platform :=
  { reference true with
    parse := Theory.JsonTree.read
    write := Theory.JsonTree.print
    parse_write := fun members _ => by
      show Theory.JsonTree.read (Theory.JsonTree.print (.obj members)) = _
      rw [Theory.JsonTree.read_print]
      exact congrArg some (congrArg _ (Value.map_mapNum_id members).symm)
    write_ne_nil := Theory.JsonTree.print_ne_nil
    zero_notMem_write := Theory.JsonTree.zero_notMem_print }

theorem printing_exact : printing.ExactNumbers := fun _ => rfl

theorem printing_lists : printing.ReadsLists := by
  intro items _
  have same : (fun members : List (Bytes × Value Int) =>
      Value.obj (members.map fun m => (m.1, m.2.mapNum id))) = Value.obj :=
    funext fun members => congrArg Value.obj (Value.map_mapNum_id members)
  exact (Theory.JsonTree.read_print _).trans
    (congrArg (fun f => some (Value.arr (items.map f))) same.symm)

/-- An ad by an author. -/
def adOf (author : Bytes) (id : Int32) : Document printing.Num := { ad id with author := author }

/-- Two ads of alice come back, alone and in a list, and are told apart. -/
theorem codec_round_trips_alice :
    deserialize printing (serialize printing (adOf alice 1)) = .ok (some (adOf alice 1)) ∧
    deserializeAll printing (serializeAll printing [adOf alice 1, adOf alice 2]) =
      .ok [adOf alice 1, adOf alice 2] ∧
    serialize printing (adOf alice 1) ≠ serialize printing (adOf alice 2) :=
  have free : ∀ d ∈ [adOf alice 1, adOf alice 2], d.NulFree := by decide
  ⟨((codec_round_trips printing_exact printing_lists).1 (adOf alice 1)).mpr (by decide),
    ((codec_round_trips printing_exact printing_lists).2.1 [adOf alice 1, adOf alice 2]).mpr free,
    (codec_round_trips printing_exact printing_lists).2.2.2 _ _ (by decide) (by decide)
      (fun same => absurd (congrArg Document.id same) (by decide))⟩

/-- An author whose digest starts with a zero byte is lost, so all of them share their
entries. -/
theorem author_lost :
    (¬ ∀ d : Document printing.Num, deserialize printing (serialize printing d) = .ok (some d)) ∧
    (¬ ∀ docs : List (Document printing.Num),
      deserializeAll printing (serializeAll printing docs) = .ok docs) ∧
    ¬ ∀ d e : Document printing.Num, d ≠ e → serialize printing d ≠ serialize printing e := by
  have read : deserialize printing (serialize printing (adOf nobody 1)) =
      .ok (some (adOf [] 1)) := deserialize_serialize _
  have lost : adOf [] 1 ≠ adOf nobody 1 := by
    intro same
    exact absurd (congrArg Document.author same) (by decide)
  refine ⟨fun all => ?_, fun all => ?_, fun all => ?_⟩
  · have back := all (adOf nobody 1)
    rw [read] at back
    injection back with back
    injection back with back
    exact lost back
  · have back := all [adOf nobody 1]
    rw [deserializeAll_serializeAll printing_lists] at back
    injection back with back
    injection back with back
    exact lost back
  · have differ : adOf nobody 1 ≠ adOf (0 :: alice.tail.reverse) 1 := by
      intro same
      exact absurd (congrArg Document.author same) (by decide)
    exact all (adOf nobody 1) (adOf (0 :: alice.tail.reverse) 1) differ rfl

end Printing

end Piac
