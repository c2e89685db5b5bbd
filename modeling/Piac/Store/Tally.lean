/-
# Store.Tally — what the replies say of the number of documents

`index_db` counts the ads that `my_hashes` lacks and `db_put_docs` returns how many
entries it was given, while what either does is a replacement under a hash: an ad
that comes twice, or that the database has already, is counted and adds nothing.

`counts_true` says when the numbers are the change in the database: of an add, when
the ads it counts have different hashes and none is stored; of a batch of entries,
when in addition every entry is accepted; of a removal, always.
-/
import Piac.Store.Withdraw

namespace Piac

set_option autoImplicit false

open Piac.Theory.CppString Piac.Theory.TermStore

variable (X : Platform)

/-- `db_put_docs` with the value it returns. -/
def dbPutDocsCounted (db : Database) (docs : List Bytes) : Except Fault (Database × Nat) := do
  let db ← dbPutDocs X db docs
  return (db, docs.length)

def addedReply (n : Nat) : Bytes := bytes "Added " ++ stdToString n ++ bytes " entries"

/-- The hashes of the ads that `index_db` adds and counts. -/
def countedHashes (author : Bytes) (myHashes : List Bytes) (docs : List (Document X.Num)) :
    List Bytes :=
  (docs.map fun d => X.sha256 (entryOf X author d)).filter fun hash => decide (hash ∉ myHashes)

/-- The hash under which `db_put_docs` stores an entry, if it accepts it. -/
def storedHash (entry : Bytes) : Option Bytes :=
  match Document.deserialize X entry with
  | .ok (some ndoc) => if ndoc.author = [] then none else some (X.sha256 (entryOf X ndoc.author ndoc))
  | _ => none

variable {X}

theorem addedReply_injective : Function.Injective addedReply := fun _ _ same =>
  stdToString_injective (List.append_cancel_left (List.append_cancel_right same))

/-! ## Lengths -/

/-- Adding to a set without repetition adds the length of what is added exactly when that is new
and has no repetition. -/
theorem length_union_iff {α : Type} [DecidableEq α] {old new added : List α} (old_ : old.Nodup)
    (new_ : new.Nodup) (members : ∀ a, a ∈ new ↔ a ∈ old ∨ a ∈ added) :
    new.length = old.length + added.length ↔ added.Nodup ∧ ∀ a ∈ added, a ∉ old := by
  have perm : new.Perm (old ++ added).dedup :=
    (List.perm_ext_iff_of_nodup new_ (List.nodup_dedup _)).mpr fun a => by
      rw [members, List.mem_dedup, List.mem_append]
  rw [perm.length_eq, ← List.length_append]
  have whole : (old ++ added).dedup.length = (old ++ added).length ↔ (old ++ added).Nodup := by
    refine ⟨fun same => ?_, fun nodup => by rw [nodup.dedup]⟩
    rw [← (List.dedup_sublist _).eq_of_length same]
    exact List.nodup_dedup _
  rw [whole, List.nodup_append']
  exact ⟨fun ⟨_, nodup, apart⟩ => ⟨nodup, fun a isNew isOld => apart isOld isNew⟩,
    fun ⟨nodup, apart⟩ => ⟨old_, nodup, fun a isOld isNew => apart a isNew isOld⟩⟩

/-- It never adds more. -/
theorem length_union_le {α : Type} {old new added : List α} (new_ : new.Nodup)
    (members : ∀ a ∈ new, a ∈ old ∨ a ∈ added) : new.length ≤ old.length + added.length := by
  rw [← List.length_append]
  exact (new_.subperm fun a member => List.mem_append.mpr (members a member)).length_le

theorem length_hashes (db : Database) : (hashes X db).length = db.length := List.length_map _

/-! ## The counts -/

theorem indexDocs_count {author : Bytes} {myHashes : List Bytes} {docs : List (Document X.Num)}
    {db db' : Database} {n n' : Nat}
    (indexed : indexDocs X author myHashes db n docs = .ok (db', n')) :
    n' = n + (countedHashes X author myHashes docs).length := by
  induction docs generalizing db n with
  | nil => cases indexed; rfl
  | cons d rest ih =>
      simp only [indexDocs] at indexed
      split at indexed
      · rename_i known
        rw [ih indexed]
        simp [countedHashes, known]
      · rename_i unknown
        simp only [bind_eq_ok] at indexed
        obtain ⟨⟨db₁, sha⟩, -, indexed⟩ := indexed
        rw [ih indexed]
        simp only [countedHashes, List.map_cons, List.filter_cons, unknown, not_false_eq_true,
          decide_true, if_true, List.length_cons]
        omega

theorem mem_countedHashes {author hash : Bytes} {myHashes : List Bytes}
    {docs : List (Document X.Num)} : hash ∈ countedHashes X author myHashes docs ↔
      ∃ d ∈ docs, X.sha256 (entryOf X author d) = hash ∧ hash ∉ myHashes := by
  simp only [countedHashes, List.mem_filter, List.mem_map, decide_eq_true_eq]
  exact ⟨fun ⟨⟨d, member, same⟩, unknown⟩ => ⟨d, member, same, unknown⟩,
    fun ⟨d, member, same, unknown⟩ => ⟨⟨d, member, same⟩, unknown⟩⟩

/-- An add counts right exactly when what it counts is new and different. -/
theorem indexDocs_true {author : Bytes} {myHashes : List Bytes} {docs : List (Document X.Num)}
    {db db' : Database} {n : Nat} (well : WellStored X db)
    (indexed : indexDocs X author myHashes db 0 docs = .ok (db', n)) :
    db'.length = db.length + n ↔ (countedHashes X author myHashes docs).Nodup ∧
      ∀ hash ∈ countedHashes X author myHashes docs, hash ∉ hashes X db := by
  have members : ∀ hash, hash ∈ hashes X db' ↔
      hash ∈ hashes X db ∨ hash ∈ countedHashes X author myHashes docs := fun hash => by
    rw [indexDocs_hashes well indexed, mem_countedHashes]
  rw [indexDocs_count indexed, Nat.zero_add, ← length_hashes (X := X) db, ← length_hashes (X := X) db']
  exact length_union_iff well.hashes_nodup (indexDocs_wellStored well indexed).hashes_nodup members

theorem storedHash_eq_some {entry hash : Bytes} : storedHash X entry = some hash ↔
    ∃ stored, Reserializes X entry stored ∧ X.sha256 stored = hash := by
  unfold storedHash Reserializes
  constructor
  · intro found
    split at found
    · rename_i ndoc read
      split at found
      · cases found
      · rename_i named
        cases found
        exact ⟨_, ⟨ndoc, read, named, rfl⟩, rfl⟩
    · cases found
  · rintro ⟨_, ⟨ndoc, read, named, rfl⟩, rfl⟩
    rw [read]
    exact if_neg named

/-- A batch counts right exactly when every entry is accepted, new and different. -/
theorem dbPutDocs_true {docs : List Bytes} {db db' : Database} (well : WellStored X db)
    (put : dbPutDocs X db docs = .ok db') :
    db'.length = db.length + docs.length ↔ (∀ entry ∈ docs, storedHash X entry ≠ none) ∧
      (docs.filterMap (storedHash X)).Nodup ∧
      ∀ hash ∈ docs.filterMap (storedHash X), hash ∉ hashes X db := by
  have members : ∀ hash, hash ∈ hashes X db' ↔
      hash ∈ hashes X db ∨ hash ∈ docs.filterMap (storedHash X) := fun hash => by
    rw [dbPutDocs_hashes well put, List.mem_filterMap]
    simp only [storedHash_eq_some]
  have nodup := well.hashes_nodup
  have nodup' := (dbPutDocs_wellStored well put).hashes_nodup
  have le := length_union_le nodup' fun hash => (members hash).mp
  have exact_ := length_union_iff nodup nodup' members
  have accepted : (docs.filterMap (storedHash X)).length = docs.length ↔
      ∀ entry ∈ docs, storedHash X entry ≠ none := by
    rw [List.filterMap_length_eq_length]
    simp only [Option.isSome_iff_ne_none]
  have fewer := List.length_filterMap_le (storedHash X) docs
  rw [length_hashes, length_hashes] at le exact_
  rw [← accepted, ← exact_]
  omega

/-! ## The replies -/

variable (X) in
/-- The documents `index_db` reads from a file. -/
def fileDocs (files : Files) (inputFilename : Bytes) : List (Document X.Num) :=
  match (files (cstr inputFilename)).map (Document.deserializeAll X) with
  | some (.ok docs) => docs
  | _ => []

theorem cannotOpen_ne (name : Bytes) (n : Nat) :
    bytes "Cannot open database input file: " ++ name ≠ addedReply n := by
  intro same
  have heads := congrArg List.head? same
  rw [show (addedReply n).head? = some 65 from rfl,
    show (bytes "Cannot open database input file: " ++ name).head? = some 67 from rfl] at heads
  cases heads

/-- `index_db` opens the file and counts what it adds from it, or does nothing. -/
theorem indexDb_cases {author inputFilename reply : Bytes} {db db' : Database} {files : Files}
    {myHashes : List Bytes}
    (done : indexDb X author db inputFilename files myHashes = .ok (db', reply)) :
    (∃ n, indexDocs X author myHashes db 0 (fileDocs X files inputFilename) = .ok (db', n) ∧
        reply = addedReply n) ∨
      fileDocs X files inputFilename = [] ∧
        reply = bytes "Cannot open database input file: " ++ inputFilename := by
  simp only [indexDb, bind_eq_ok] at done
  obtain ⟨⟨⟩, -, done⟩ := done
  split at done
  · rename_i missing
    cases done
    exact .inr ⟨by rw [fileDocs, missing]; rfl, rfl⟩
  · rename_i content opened
    simp only [bind_eq_ok] at done
    obtain ⟨docs, read, ⟨db₁, n⟩, indexed, done⟩ := done
    cases done
    have same : fileDocs X files inputFilename = docs := by
      rw [fileDocs, opened, Option.map_some, read]
    exact .inl ⟨n, by rw [same]; exact indexed, rfl⟩

/-- **When the reported numbers are the change in the number of documents.** For each well-kept
database and each input: an add, exactly when the ads it counts have different hashes and none of
them is stored; a batch, exactly when every entry is accepted and the same holds of what is
stored for them; a removal, always. -/
theorem counts_true {db : Database} (well : WellStored X db) :
    (∀ author inputFilename files myHashes db' reply,
      indexDb X author db inputFilename files myHashes = .ok (db', reply) →
        ((∀ n, reply = addedReply n → db'.length = db.length + n) ↔
          (countedHashes X author myHashes (fileDocs X files inputFilename)).Nodup ∧
            ∀ hash ∈ countedHashes X author myHashes (fileDocs X files inputFilename),
              hash ∉ hashes X db)) ∧
    (∀ docs db' n, dbPutDocsCounted X db docs = .ok (db', n) →
        (db'.length = db.length + n ↔ (∀ entry ∈ docs, storedHash X entry ≠ none) ∧
          (docs.filterMap (storedHash X)).Nodup ∧
          ∀ hash ∈ docs.filterMap (storedHash X), hash ∉ hashes X db)) ∧
    ∀ author hashesToDelete myHashes db' reply,
      dbRmDocs X author db hashesToDelete myHashes = .ok (db', reply) →
        ∀ n, reply = removedReply n → db'.length + n = db.length := by
  refine ⟨fun author inputFilename files myHashes db' reply done => ?_, fun docs db' n done => ?_,
    fun author hashesToDelete myHashes db' reply done n said => ?_⟩
  · obtain ⟨n, indexed, rfl⟩ | ⟨empty, rfl⟩ := indexDb_cases done
    · rw [← indexDocs_true well indexed]
      exact ⟨fun all => all n rfl, fun same n' said => addedReply_injective said ▸ same⟩
    · rw [empty]
      refine iff_of_true (fun n said => absurd said (cannotOpen_ne _ n)) ?_
      exact ⟨.nil, fun _ member => absurd member List.not_mem_nil⟩
  · simp only [dbPutDocsCounted, bind_eq_ok] at done
    obtain ⟨db₁, put, done⟩ := done
    cases done
    exact dbPutDocs_true well put
  · unfold dbRmDocs at done
    split at done
    · cases done
      have heads := congrArg List.head? said
      rw [show (removedReply n).head? = some 82 from rfl,
        show (bytes "no docs").head? = some 110 by decide] at heads
      cases heads
    · obtain refused | ⟨k, said', count⟩ := rmDocs_count myHashes well done
      · exact absurd (said.symm.trans refused) (refusedReply_ne n)
      · rw [said] at said'
        rw [removedReply_injective said']
        omega

/-! ## Files with lists -/

section Lists

open Reference

/-- The platform of `reference`, with a reader that also takes lists of objects. -/
def referenceLists : Platform :=
  { reference true with
    parse := Theory.JsonText.readText
    parse_write := fun members scalars => by
      show Theory.JsonText.readText (Theory.JsonText.write (.obj members)) = _
      rw [Theory.JsonText.readText_write scalars]
      exact congrArg some (congrArg _ (Theory.Json.Value.map_mapNum_id members).symm) }

/-- A file with the texts of some ads as a list. -/
def listFile (entries : List Bytes) : Files :=
  fun _ => some (bytes "[" ++ [44].intercalate entries ++ bytes "]")

def aliceDoc (id : Int32) : Doc Bytes Bytes := xapianDoc referenceLists alice (ad id)

/-- It applies to a file with two ads, to a batch of one entry and to a removal. -/
theorem counts_true_alice :
    (∀ n, addedReply 2 = addedReply n → [aliceDoc 1, aliceDoc 2].length = 0 + n) ∧
    [aliceDoc 2].length = 0 + 1 ∧
    ∀ n, removedReply 1 = removedReply n →
      [xapianDoc (reference true) nobody (ad 1)].length + n = twoUsers.length :=
  ⟨((counts_true (X := referenceLists) .nil).1 alice (bytes "ads.json")
      (listFile [entry "1" "", entry "2" ""]) [] _ _ (by decide +kernel)).mpr (by decide +kernel),
    ((counts_true (X := referenceLists) .nil).2.1 [aliceEntry "2"] _ 1 (by decide +kernel)).mpr
      (by decide +kernel),
    (counts_true twoUsers_wellStored).2.2 alice [hex (sha256 (aliceEntry "1"))]
      [sha256 (aliceEntry "1")] _ _ (by decide +kernel)⟩

/-- A file with one ad in it twice, and a batch with one entry in it twice. -/
theorem counted_twice :
    (¬ ∀ (author inputFilename : Bytes) (files : Files) (myHashes : List Bytes) (db' : Database)
        (reply : Bytes),
      indexDb referenceLists author [] inputFilename files myHashes = .ok (db', reply) →
        ∀ n, reply = addedReply n → db'.length = ([] : Database).length + n) ∧
    ¬ ∀ (docs : List Bytes) (db' : Database) (n : Nat),
      dbPutDocsCounted referenceLists [] docs = .ok (db', n) →
        db'.length = ([] : Database).length + n := by
  constructor
  · intro all
    have wrong := all alice (bytes "ads.json") (listFile [entry "1" "", entry "1" ""]) []
      [aliceDoc 1] (addedReply 2) (by decide +kernel) 2 rfl
    cases wrong
  · intro all
    have wrong := all [aliceEntry "2", aliceEntry "2"] [aliceDoc 2] 2 (by decide +kernel)
    cases wrong

end Lists

end Piac
