/-
# Store.Contents — what the database functions do to a well-kept database

A database is `WellStored` when it is keyed by the hash terms of its entries
(`Theory.TermStore`) and every entry is the text of some document. Every function
of `db.cpp` keeps that, and for each of them this module says, in terms of the
entries and of their hashes, what the database holds afterwards:

* `indexDocs_hashes`: the old hashes and those of the submitted entries that were
  not in `my_hashes`;
* `dbPutDocs_hashes`: the old hashes and those of what the accepted entries
  re-serialise to (`Reserializes`);
* `rmDocs_subset`: documents only go;
* `dbGetDocs_eq`: for each hash the entry stored under it, in order.
-/
import Piac.Daemon.DbThread

namespace Piac

set_option autoImplicit false

open Piac.Theory.CppString Piac.Theory.TermStore

/-- The terms set aside for hashes. -/
def IsHashTerm (t : Bytes) : Prop := t.head? = some 81

variable (X : Platform)

/-- The key of an entry. -/
def entryTerm (entry : Bytes) : Bytes := hashTerm (X.sha256 entry)

/-- The hashes of the stored entries, by document. -/
def hashes (db : Database) : List Bytes := db.map fun doc => X.sha256 doc.data

structure WellStored (db : Database) : Prop where
  keyed : Keyed IsHashTerm (entryTerm X) db
  written : ∀ doc ∈ db, ∃ d : Document X.Num, doc.data = Document.serialize X d

/-- The entry stored under a hash. -/
def entryUnder (db : Database) (hash : Bytes) : Option Bytes :=
  (db.find? fun doc => X.sha256 doc.data = hash).map Doc.data

/-- `db_put_docs` stores `stored` for `entry`: the entry parses, its author is not
empty, and the document is written back as `stored`. -/
def Reserializes (entry stored : Bytes) : Prop :=
  ∃ ndoc : Document X.Num, Document.deserialize X entry = .ok (some ndoc) ∧
    ndoc.author ≠ [] ∧ Document.serialize X ndoc = stored

/-- An entry that peers accept and store as it is. -/
def Canonical (entry : Bytes) : Prop := Reserializes X entry entry

variable {X}

theorem hashTerm_injective : Function.Injective hashTerm := fun _ _ same =>
  (List.cons.inj same).2

theorem isHashTerm_hashTerm (hash : Bytes) : IsHashTerm (hashTerm hash) := rfl

theorem mem_hashes {db : Database} {hash : Bytes} :
    hash ∈ hashes X db ↔ ∃ doc ∈ db, X.sha256 doc.data = hash := by
  simp [hashes]

theorem length_of_mem_hashes {db : Database} {hash : Bytes} (member : hash ∈ hashes X db) :
    hash.length = 32 := by
  obtain ⟨doc, -, rfl⟩ := mem_hashes.mp member
  exact X.sha256_length _

theorem dbListHash_eq (db : Database) : dbListHash X db false = hashes X db := by
  simp [dbListHash, hashes]

theorem getDoccount_eq_zero {db : Database} : getDoccount db = 0 ↔ db = [] :=
  List.length_eq_zero_iff

theorem WellStored.nil : WellStored X [] := ⟨.nil, by simp⟩

/-- Two stored documents with one hash are one document. -/
theorem WellStored.unique {db : Database} (well : WellStored X db) {d e : Doc Bytes Bytes}
    (hd : d ∈ db) (he : e ∈ db) (same : X.sha256 d.data = X.sha256 e.data) : d = e :=
  well.keyed.unique hd he (isHashTerm_hashTerm _) (congrArg hashTerm same)

theorem WellStored.hashes_nodup {db : Database} (well : WellStored X db) :
    (hashes X db).Nodup := by
  refine List.pairwise_map.mpr (well.keyed.distinct.imp fun apart same => ?_)
  exact apart (congrArg hashTerm same)

/-- The documents indexed by a hash term: the one with that hash, or none. -/
theorem WellStored.postings_head {db : Database} (well : WellStored X db) (hash : Bytes) :
    (postings (hashTerm hash) db).head?.map Doc.data = entryUnder X db hash := by
  have indexed : ∀ doc ∈ db, hashTerm hash ∈ doc.terms ↔ X.sha256 doc.data = hash := by
    intro doc member
    rw [well.keyed.carries doc member _ (isHashTerm_hashTerm _)]
    exact ⟨fun same => (hashTerm_injective same).symm, fun same => congrArg hashTerm same.symm⟩
  have same : postings (hashTerm hash) db =
      db.filter fun doc => decide (X.sha256 doc.data = hash) :=
    List.filter_congr fun doc member => decide_eq_decide.mpr (indexed doc member)
  rw [entryUnder, same, List.head?_filter]

theorem entryUnder_eq_some {db : Database} (well : WellStored X db) {hash entry : Bytes} :
    entryUnder X db hash = some entry ↔ ∃ doc ∈ db, doc.data = entry ∧ X.sha256 entry = hash := by
  rw [entryUnder, Option.map_eq_some_iff]
  constructor
  · rintro ⟨doc, found, rfl⟩
    exact ⟨doc, List.mem_of_find?_eq_some found, rfl, by simpa using List.find?_some found⟩
  · rintro ⟨doc, member, rfl, rfl⟩
    have some_ : (db.find? fun other => X.sha256 other.data = X.sha256 doc.data).isSome :=
      List.find?_isSome.mpr ⟨doc, member, by simp⟩
    obtain ⟨other, found⟩ := Option.isSome_iff_exists.mp some_
    have same : other = doc := well.unique (List.mem_of_find?_eq_some found) member
      (by simpa using List.find?_some found)
    exact ⟨other, found, congrArg Doc.data same⟩

theorem entryUnder_isSome {db : Database} {hash : Bytes} :
    (entryUnder X db hash).isSome ↔ hash ∈ hashes X db := by
  simp [entryUnder, hashes]

/-! ## Adding one document -/

theorem indexTerms_not_hashTerm {ndoc : Document X.Num} {t : Bytes}
    (member : t ∈ indexTerms X ndoc) : ¬ IsHashTerm t := by
  have text : ∀ (pre text : Bytes), pre.head? ≠ some 81 → t ∈ X.indexText pre text →
      t.head? ≠ some 81 := fun pre text plain inText => X.indexText_head pre text t inText plain
  have number : t = intToString ndoc.id.toInt → t.head? ≠ some 81 := by
    rintro rfl
    obtain ⟨b, rest, shape⟩ :=
      List.exists_cons_of_ne_nil (stdToString_ne_nil ndoc.id.toInt.natAbs)
    have digit : isDigit b = true :=
      isDigit_stdToString (n := ndoc.id.toInt.natAbs) (by simp [shape])
    unfold intToString
    split
    · simp
    · simp only [shape, List.head?_cons, ne_eq, Option.some.injEq]
      rintro rfl
      exact absurd digit (by decide)
  simp only [indexTerms, List.mem_append, List.mem_singleton] at member
  unfold IsHashTerm
  rcases member with (((((((((((((((h | h) | h) | h) | h) | h) | h) | h) | h) | h) | h) | h) |
    h) | h) | h) | h) | h
  all_goals first
    | exact number h
    | exact text _ _ (by decide) h

theorem entryOf_self (ndoc : Document X.Num) :
    entryOf X ndoc.author ndoc = Document.serialize X ndoc := rfl

/-- The entry of an ad is canonical, if its price is read back as it was and its author does
not start with a zero byte. -/
theorem canonical_entryOf {author : Bytes} {ndoc : Document X.Num}
    (price : X.reread ndoc.price = ndoc.price) (named : cstr author ≠ []) :
    Canonical X (entryOf X author ndoc) := by
  refine ⟨_, Document.deserialize_serialize _, named, ?_⟩
  simp only [entryOf, Document.serialize, Document.members, Document.stored, cstr_cstr, price]

/-- Writing again what was read is the identity on texts of documents. -/
theorem Reserializes.same (reread : ∀ x, X.reread x = x) {d : Document X.Num} {stored : Bytes}
    (reserializes : Reserializes X (Document.serialize X d) stored) :
    stored = Document.serialize X d := by
  obtain ⟨ad, read, -, rfl⟩ := reserializes
  rw [Document.deserialize_serialize] at read
  cases read
  simp only [Document.serialize, Document.members, Document.stored, cstr_cstr, reread]

/-- An accepted entry is stored as one thing. -/
theorem Reserializes.unique {e stored stored' : Bytes} (one : Reserializes X e stored)
    (other : Reserializes X e stored') : stored = stored' := by
  obtain ⟨ad, read, -, rfl⟩ := one
  obtain ⟨ad', read', -, rfl⟩ := other
  rw [read] at read'
  cases read'
  rfl

theorem Canonical.reserializes_iff {entry stored : Bytes} (canonical : Canonical X entry) :
    Reserializes X entry stored ↔ stored = entry :=
  ⟨fun again => again.unique canonical, fun same => same ▸ canonical⟩

/-- `add_document` keeps a database well stored. -/
theorem addDocument_wellStored {author sha : Bytes} {db db' : Database} {ndoc : Document X.Num}
    (well : WellStored X db) (added : addDocument X author db ndoc = .ok (db', sha)) :
    WellStored X db' := by
  simp only [addDocument, bind_eq_ok] at added
  obtain ⟨⟨⟩, -, added⟩ := added
  cases added
  have carries : ∀ t, IsHashTerm t →
      (t ∈ (xapianDoc X author ndoc).terms ↔ t = entryTerm X (entryOf X author ndoc)) := by
    intro t isHash
    simp only [xapianDoc, List.mem_append, List.mem_singleton]
    exact ⟨fun h => h.resolve_left fun inText => indexTerms_not_hashTerm inText isHash, .inr⟩
  refine ⟨?_, fun doc member => ?_⟩
  · exact @Keyed.replace _ _ _ _ _ _ well.keyed (xapianDoc X author ndoc)
      (isHashTerm_hashTerm _) carries
  · rcases mem_replace.mp member with rfl | ⟨old, -⟩
    · exact ⟨_, rfl⟩
    · exact well.written doc old

/-- What is stored after `add_document`: the new entry, and the documents that had
another hash. -/
theorem addDocument_data {author sha : Bytes} {db db' : Database} {ndoc : Document X.Num}
    (well : WellStored X db) (added : addDocument X author db ndoc = .ok (db', sha))
    (entry : Bytes) : (∃ doc ∈ db', doc.data = entry) ↔
      entry = entryOf X author ndoc ∨
        ((∃ doc ∈ db, doc.data = entry) ∧ X.sha256 entry ≠ X.sha256 (entryOf X author ndoc)) := by
  simp only [addDocument, bind_eq_ok] at added
  obtain ⟨⟨⟩, -, added⟩ := added
  cases added
  have indexed : ∀ doc ∈ db, hashTerm (X.sha256 (entryOf X author ndoc)) ∈ doc.terms ↔
      X.sha256 doc.data = X.sha256 (entryOf X author ndoc) := by
    intro doc member
    rw [well.keyed.carries doc member _ (isHashTerm_hashTerm _)]
    exact ⟨fun same => (hashTerm_injective same).symm, fun same => congrArg hashTerm same.symm⟩
  simp only [mem_replace]
  constructor
  · rintro ⟨doc, rfl | ⟨old, fresh⟩, rfl⟩
    · exact .inl rfl
    · exact .inr ⟨⟨doc, old, rfl⟩, fun same => fresh ((indexed doc old).mpr same)⟩
  · rintro (rfl | ⟨⟨doc, old, rfl⟩, fresh⟩)
    · exact ⟨_, .inl rfl, rfl⟩
    · exact ⟨doc, .inr ⟨old, fun inTerms => fresh ((indexed doc old).mp inTerms)⟩, rfl⟩

theorem addDocument_hashes {author sha : Bytes} {db db' : Database} {ndoc : Document X.Num}
    (well : WellStored X db) (added : addDocument X author db ndoc = .ok (db', sha))
    (hash : Bytes) :
    hash ∈ hashes X db' ↔ hash ∈ hashes X db ∨ hash = X.sha256 (entryOf X author ndoc) := by
  have data := addDocument_data well added
  rw [mem_hashes, mem_hashes]
  constructor
  · rintro ⟨doc, member, rfl⟩
    rcases (data doc.data).mp ⟨doc, member, rfl⟩ with new | ⟨⟨old, member, same⟩, -⟩
    · exact .inr (congrArg _ new)
    · exact .inl ⟨old, member, congrArg _ same⟩
  · rintro (⟨doc, member, rfl⟩ | rfl)
    · by_cases same : X.sha256 doc.data = X.sha256 (entryOf X author ndoc)
      · obtain ⟨new, inNew, isEntry⟩ := (data _).mpr (.inl rfl)
        exact ⟨new, inNew, by rw [isEntry, same]⟩
      · obtain ⟨old, inNew, isData⟩ := (data _).mpr (.inr ⟨⟨doc, member, rfl⟩, same⟩)
        exact ⟨old, inNew, congrArg _ isData⟩
    · obtain ⟨new, inNew, isEntry⟩ := (data _).mpr (.inl rfl)
      exact ⟨new, inNew, congrArg _ isEntry⟩

theorem addDocument_ok {author : Bytes} (db : Database) (ndoc : Document X.Num)
    (allowed : X.ndebug = true ∨ author ≠ []) :
    ∃ r, addDocument X author db ndoc = .ok r := by
  simp only [addDocument, bind_eq_ok]
  exact ⟨_, (), Platform.assert_eq_ok.mpr (by simpa using allowed), rfl⟩

/-! ## A client's file -/

theorem indexDocs_wellStored {author : Bytes} {myHashes : List Bytes}
    {docs : List (Document X.Num)} {db db' : Database} {n n' : Nat} (well : WellStored X db)
    (indexed : indexDocs X author myHashes db n docs = .ok (db', n')) : WellStored X db' := by
  induction docs generalizing db n with
  | nil => cases indexed; exact well
  | cons d rest ih =>
      simp only [indexDocs] at indexed
      split at indexed
      · exact ih well indexed
      · simp only [bind_eq_ok] at indexed
        obtain ⟨⟨db₁, sha⟩, added, indexed⟩ := indexed
        exact ih (addDocument_wellStored well added) indexed

/-- **The hashes after a client's file**: the old ones and those of the submitted
entries that `my_hashes` lacked. -/
theorem indexDocs_hashes {author : Bytes} {myHashes : List Bytes} {docs : List (Document X.Num)}
    {db db' : Database} {n n' : Nat} (well : WellStored X db)
    (indexed : indexDocs X author myHashes db n docs = .ok (db', n')) (hash : Bytes) :
    hash ∈ hashes X db' ↔ hash ∈ hashes X db ∨
      ∃ d ∈ docs, X.sha256 (entryOf X author d) = hash ∧ hash ∉ myHashes := by
  induction docs generalizing db n with
  | nil => cases indexed; simp
  | cons d rest ih =>
      simp only [indexDocs] at indexed
      split at indexed
      · rename_i known
        rw [ih well indexed]
        simp only [List.mem_cons, exists_eq_or_imp]
        constructor
        · rintro (old | new)
          · exact .inl old
          · exact .inr (.inr new)
        · rintro (old | ⟨rfl, unknown⟩ | new)
          · exact .inl old
          · exact absurd known unknown
          · exact .inr new
      · rename_i unknown
        simp only [bind_eq_ok] at indexed
        obtain ⟨⟨db₁, sha⟩, added, indexed⟩ := indexed
        rw [ih (addDocument_wellStored well added) indexed, addDocument_hashes well added]
        simp only [List.mem_cons, exists_eq_or_imp, or_assoc]
        constructor
        · rintro (old | rfl | new)
          · exact .inl old
          · exact .inr (.inl ⟨rfl, unknown⟩)
          · exact .inr (.inr new)
        · rintro (old | ⟨rfl, -⟩ | new)
          · exact .inl old
          · exact .inr (.inl rfl)
          · exact .inr (.inr new)

/-- Every entry after a client's file was there before or was submitted. -/
theorem indexDocs_data {author : Bytes} {myHashes : List Bytes} {docs : List (Document X.Num)}
    {db db' : Database} {n n' : Nat} (well : WellStored X db)
    (indexed : indexDocs X author myHashes db n docs = .ok (db', n')) {doc : Doc Bytes Bytes}
    (member : doc ∈ db') :
    (∃ old ∈ db, old.data = doc.data) ∨ ∃ d ∈ docs, doc.data = entryOf X author d := by
  induction docs generalizing db n with
  | nil => cases indexed; exact .inl ⟨doc, member, rfl⟩
  | cons d rest ih =>
      simp only [indexDocs] at indexed
      split at indexed
      · rcases ih well indexed with old | ⟨d', inRest, same⟩
        · exact .inl old
        · exact .inr ⟨d', by simp [inRest], same⟩
      · simp only [bind_eq_ok] at indexed
        obtain ⟨⟨db₁, sha⟩, added, indexed⟩ := indexed
        rcases ih (addDocument_wellStored well added) indexed with old | ⟨d', inRest, same⟩
        · rcases (addDocument_data well added doc.data).mp old with new | ⟨older, -⟩
          · exact .inr ⟨d, by simp, new⟩
          · exact .inl older
        · exact .inr ⟨d', by simp [inRest], same⟩

theorem indexDocs_ok {author : Bytes} (myHashes : List Bytes) (docs : List (Document X.Num))
    (db : Database) (n : Nat) (allowed : X.ndebug = true ∨ author ≠ []) :
    ∃ r, indexDocs X author myHashes db n docs = .ok r := by
  induction docs generalizing db n with
  | nil => exact ⟨_, rfl⟩
  | cons d rest ih =>
      simp only [indexDocs]
      split
      · exact ih db n
      · obtain ⟨⟨db₁, sha⟩, added⟩ :=
          addDocument_ok (X := X) db { d with author := author } allowed
        obtain ⟨r, indexed⟩ := ih db₁ (n + 1)
        exact ⟨r, bind_eq_ok.mpr ⟨_, added, indexed⟩⟩

/-! ## A peer's entries -/

theorem dbPutDocs_wellStored {docs : List Bytes} {db db' : Database} (well : WellStored X db)
    (put : dbPutDocs X db docs = .ok db') : WellStored X db' := by
  induction docs generalizing db with
  | nil => cases put; exact well
  | cons d rest ih =>
      simp only [dbPutDocs, bind_eq_ok] at put
      obtain ⟨parsed, -, put⟩ := put
      split at put
      · exact ih well put
      · split at put
        · exact ih well put
        · simp only [bind_eq_ok] at put
          obtain ⟨⟨db₁, sha⟩, added, put⟩ := put
          exact ih (addDocument_wellStored well added) put

/-- **The hashes after a peer's entries**: the old ones and those of what the
accepted entries re-serialise to. -/
theorem dbPutDocs_hashes {docs : List Bytes} {db db' : Database} (well : WellStored X db)
    (put : dbPutDocs X db docs = .ok db') (hash : Bytes) :
    hash ∈ hashes X db' ↔ hash ∈ hashes X db ∨
      ∃ d ∈ docs, ∃ stored, Reserializes X d stored ∧ X.sha256 stored = hash := by
  induction docs generalizing db with
  | nil => cases put; simp
  | cons d rest ih =>
      simp only [dbPutDocs, bind_eq_ok] at put
      obtain ⟨parsed, read, put⟩ := put
      simp only [List.mem_cons, exists_eq_or_imp]
      -- what is refused re-serialises to nothing
      split at put
      · have refused : ¬ ∃ stored, Reserializes X d stored ∧ X.sha256 stored = hash := by
          rintro ⟨_, ⟨ndoc, read', -⟩, -⟩
          rw [read] at read'
          cases read'
        rw [ih well put, or_iff_right refused]
      · rename_i ndoc
        split at put
        · rename_i anonymous
          have refused : ¬ ∃ stored, Reserializes X d stored ∧ X.sha256 stored = hash := by
            rintro ⟨_, ⟨ndoc', read', named, -⟩, -⟩
            rw [read] at read'
            cases read'
            exact named anonymous
          rw [ih well put, or_iff_right refused]
        · rename_i named
          simp only [bind_eq_ok] at put
          obtain ⟨⟨db₁, sha⟩, added, put⟩ := put
          have accepted : (∃ stored, Reserializes X d stored ∧ X.sha256 stored = hash) ↔
              hash = X.sha256 (entryOf X ndoc.author ndoc) := by
            constructor
            · rintro ⟨_, ⟨ndoc', read', -, rfl⟩, rfl⟩
              rw [read] at read'
              cases read'
              rfl
            · rintro rfl
              exact ⟨_, ⟨ndoc, read, named, rfl⟩, rfl⟩
          rw [ih (addDocument_wellStored well added) put, addDocument_hashes well added,
            accepted, or_assoc]

/-- Every entry after a peer's entries was there before or is the re-serialisation
of one of them. -/
theorem dbPutDocs_data {docs : List Bytes} {db db' : Database} (well : WellStored X db)
    (put : dbPutDocs X db docs = .ok db') {doc : Doc Bytes Bytes} (member : doc ∈ db') :
    (∃ old ∈ db, old.data = doc.data) ∨ ∃ d ∈ docs, Reserializes X d doc.data := by
  induction docs generalizing db with
  | nil => cases put; exact .inl ⟨doc, member, rfl⟩
  | cons d rest ih =>
      simp only [dbPutDocs, bind_eq_ok] at put
      obtain ⟨parsed, read, put⟩ := put
      have later : (∃ d' ∈ rest, Reserializes X d' doc.data) →
          ∃ d' ∈ d :: rest, Reserializes X d' doc.data :=
        fun ⟨d', inRest, same⟩ => ⟨d', by simp [inRest], same⟩
      split at put
      · exact (ih well put).imp_right later
      · rename_i ndoc
        split at put
        · exact (ih well put).imp_right later
        · rename_i named
          simp only [bind_eq_ok] at put
          obtain ⟨⟨db₁, sha⟩, added, put⟩ := put
          rcases ih (addDocument_wellStored well added) put with old | new
          · rcases (addDocument_data well added doc.data).mp old with this | ⟨older, -⟩
            · exact .inr ⟨d, by simp, ndoc, read, named, by rw [this, entryOf_self]⟩
            · exact .inl older
          · exact .inr (later new)

/-- Entries that parse are never a fault. -/
theorem dbPutDocs_ok {docs : List Bytes} (db : Database)
    (parse : ∀ d ∈ docs, ∃ r, Document.deserialize X d = .ok r) :
    ∃ db', dbPutDocs X db docs = .ok db' := by
  induction docs generalizing db with
  | nil => exact ⟨db, rfl⟩
  | cons d rest ih =>
      obtain ⟨parsed, read⟩ := parse d (by simp)
      have later := fun db₁ => ih db₁ fun d' inRest => parse d' (by simp [inRest])
      cases parsed with
      | none =>
          obtain ⟨db', put⟩ := later db
          exact ⟨db', by simp only [dbPutDocs, read]; exact put⟩
      | some ndoc =>
          by_cases anonymous : ndoc.author = []
          · obtain ⟨db', put⟩ := later db
            refine ⟨db', ?_⟩
            simp only [dbPutDocs, bind_eq_ok]
            exact ⟨_, read, by simpa only [if_pos anonymous] using put⟩
          · obtain ⟨⟨db₁, sha⟩, added⟩ := addDocument_ok (X := X) db ndoc (.inr anonymous)
            obtain ⟨db', put⟩ := later db₁
            refine ⟨db', ?_⟩
            simp only [dbPutDocs, bind_eq_ok]
            refine ⟨_, read, ?_⟩
            simp only [if_neg anonymous, bind_eq_ok]
            exact ⟨_, added, put⟩

/-- What ends the process here is an entry that is JSON but no document. -/
theorem dbPutDocs_error {docs : List Bytes} {db : Database} {f : Fault}
    (failed : dbPutDocs X db docs = .error f) : ∃ d ∈ docs, Document.deserialize X d = .error f := by
  induction docs generalizing db with
  | nil => cases failed
  | cons d rest ih =>
      have later : (∃ d' ∈ rest, Document.deserialize X d' = .error f) →
          ∃ d' ∈ d :: rest, Document.deserialize X d' = .error f :=
        fun ⟨d', inRest, same⟩ => ⟨d', by simp [inRest], same⟩
      simp only [dbPutDocs, bind_eq_error] at failed
      rcases failed with first | ⟨parsed, -, failed⟩
      · exact ⟨d, by simp, first⟩
      · split at failed
        · exact later (ih failed)
        · split at failed
          · exact later (ih failed)
          · rename_i ndoc named
            simp only [bind_eq_error] at failed
            rcases failed with added | ⟨⟨db₁, sha⟩, -, failed⟩
            · obtain ⟨r, ok⟩ := addDocument_ok (X := X) db ndoc (.inr named)
              rw [ok] at added
              cases added
            · exact later (ih failed)

/-! ## Removals -/

theorem rmDocs_wellStored {author reply : Bytes} {hashesToDelete myHashes : List Bytes}
    {db db' : Database} {n : Nat} (well : WellStored X db)
    (removed : rmDocs X author hashesToDelete db n myHashes = .ok (db', reply)) :
    WellStored X db' ∧ ∀ doc ∈ db', doc ∈ db := by
  induction myHashes generalizing db n with
  | nil => cases removed; exact ⟨well, fun _ h => h⟩
  | cons h rest ih =>
      simp only [rmDocs, bind_eq_ok] at removed
      obtain ⟨⟨⟩, -, removed⟩ := removed
      split at removed
      · exact ih well removed
      · split at removed
        · simp only [bind_eq_ok] at removed
          obtain ⟨parsed, -, removed⟩ := removed
          split at removed
          · have smaller : WellStored X (delete (hashTerm h) db) :=
              ⟨well.keyed.delete _, fun doc member => well.written doc (mem_delete.mp member).1⟩
            obtain ⟨well', subset⟩ := ih smaller removed
            exact ⟨well', fun doc member => (mem_delete.mp (subset doc member)).1⟩
          · cases removed; exact ⟨well, fun _ h => h⟩
        · exact ih well removed

theorem dbRmDocs_wellStored {author reply : Bytes} {hashesToDelete myHashes : List Bytes}
    {db db' : Database} (well : WellStored X db)
    (removed : dbRmDocs X author db hashesToDelete myHashes = .ok (db', reply)) :
    WellStored X db' ∧ ∀ doc ∈ db', doc ∈ db := by
  unfold dbRmDocs at removed
  split at removed
  · cases removed; exact ⟨well, fun _ h => h⟩
  · exact rmDocs_wellStored well removed

/-- On a well stored database a removal is never a fault. -/
theorem rmDocs_ok {author : Bytes} {hashesToDelete myHashes : List Bytes} {db : Database}
    (well : WellStored X db) (sized : ∀ h ∈ myHashes, h.length = 32) (n : Nat) :
    ∃ r, rmDocs X author hashesToDelete db n myHashes = .ok r := by
  induction myHashes generalizing db n with
  | nil => exact ⟨_, rfl⟩
  | cons h rest ih =>
      have sizedRest : ∀ h' ∈ rest, h'.length = 32 := fun h' inRest => sized h' (by simp [inRest])
      have assert : X.assert .dbRmDocs (h.length == 32) = .ok () :=
        Platform.assert_eq_ok.mpr (.inr (by simp [sized h]))
      simp only [rmDocs, bind_eq_ok]
      refine exists_comm.mp ⟨(), ?_⟩
      simp only [assert, true_and]
      split
      · exact ih well sizedRest n
      · rename_i doc found
        split
        · have stored : doc ∈ db := (List.mem_filter.mp (List.mem_of_head? found)).1
          obtain ⟨d, written⟩ := well.written doc stored
          have smaller : WellStored X (delete (hashTerm h) db) :=
            ⟨well.keyed.delete _, fun doc member => well.written doc (mem_delete.mp member).1⟩
          simp only [bind_eq_ok, written, Document.deserialize_serialize, Except.ok.injEq,
            exists_eq_left']
          split
          · exact ih smaller sizedRest (n + 1)
          · exact ⟨_, rfl⟩
        · exact ih well sizedRest n

/-! ## Lookups -/

theorem getDocs_eq {hashes docs : List Bytes} {db : Database} (well : WellStored X db)
    (got : getDocs X db hashes = .ok docs) : docs = hashes.filterMap (entryUnder X db) := by
  induction hashes generalizing docs with
  | nil => cases got; rfl
  | cons h rest ih =>
      simp only [getDocs, bind_eq_ok] at got
      obtain ⟨⟨⟩, -, docs', got, shape⟩ := got
      rw [well.postings_head] at shape
      cases shape
      rw [ih got]
      cases found : entryUnder X db h <;> simp [found]

/-- **`db_get_docs` returns, in order, the entry stored under each hash.** -/
theorem dbGetDocs_eq {hashes docs : List Bytes} {db : Database} (well : WellStored X db)
    (got : dbGetDocs X db hashes = .ok docs) : docs = hashes.filterMap (entryUnder X db) := by
  unfold dbGetDocs at got
  split at got
  · rename_i empty
    cases got
    rw [getDoccount_eq_zero.mp empty]
    simp [entryUnder]
  · exact getDocs_eq well got

/-- What ends the process here is a hash of another size, in a Debug build. -/
theorem dbGetDocs_error {hashes : List Bytes} {db : Database} {f : Fault}
    (failed : dbGetDocs X db hashes = .error f) :
    X.ndebug = false ∧ f = .assertion .dbGetDocs ∧ ∃ h ∈ hashes, h.length ≠ 32 := by
  unfold dbGetDocs at failed
  split at failed
  · cases failed
  · induction hashes with
    | nil => cases failed
    | cons h rest ih =>
        simp only [getDocs, bind_eq_error] at failed
        rcases failed with first | ⟨⟨⟩, -, later | ⟨_, -, impossible⟩⟩
        · obtain ⟨⟨debug, size⟩, rfl⟩ := Platform.assert_eq_error.mp first
          exact ⟨debug, rfl, h, by simp, by simpa using size⟩
        · obtain ⟨debug, rfl, h', inRest, size⟩ := ih later
          exact ⟨debug, rfl, h', by simp [inRest], size⟩
        · cases impossible

theorem dbGetDocs_ok {hashes : List Bytes} (db : Database)
    (sized : X.ndebug = true ∨ ∀ h ∈ hashes, h.length = 32) :
    ∃ docs, dbGetDocs X db hashes = .ok docs := by
  unfold dbGetDocs
  split
  · exact ⟨_, rfl⟩
  · induction hashes with
    | nil => exact ⟨_, rfl⟩
    | cons h rest ih =>
        obtain ⟨docs, got⟩ := ih (sized.imp_right fun all h' inRest => all h' (by simp [inRest]))
        have assert : X.assert .dbGetDocs (h.length == 32) = .ok () :=
          Platform.assert_eq_ok.mpr (sized.imp_right fun all => by simp [all h])
        exact ⟨_, bind_eq_ok.mpr ⟨(), assert, bind_eq_ok.mpr ⟨docs, got, rfl⟩⟩⟩

end Piac
