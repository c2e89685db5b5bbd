/-
# Store.Withdraw — what a removal does, document by document

`db_rm_docs` walks `my_hashes`, an unordered set, and deletes as it goes: the first
document that was asked for and has another author ends the walk, and what was
deleted before it stays deleted.

* `rmDocs_own`: if all that was asked for is the author's, it is gone afterwards and
  nothing else is, in whatever order the hashes came;
* `rmDocs_foreign`: if none of it is the author's, the database stays as it was;
* `removal_all_or_nothing`: these two are the cases in which a removal is all or
  nothing; in between it depends on the order of the set.
-/
import Piac.Store.Mirror

namespace Piac

set_option autoImplicit false

open Piac.Theory.CppString Piac.Theory.TermStore Piac.Theory.Transition

variable (X : Platform)

/-- The author that `db_rm_docs` reads from an entry. -/
def authorOf (entry : Bytes) : Bytes :=
  match Document.deserialize X entry with
  | .ok (some ndoc) => ndoc.author
  | _ => []

/-- The hash of the document was asked for. -/
def Wanted (hashesToDelete : List Bytes) (doc : Doc Bytes Bytes) : Prop :=
  hex (X.sha256 doc.data) ∈ hashesToDelete

instance (hashesToDelete : List Bytes) (doc : Doc Bytes Bytes) :
    Decidable (Wanted X hashesToDelete doc) := inferInstanceAs (Decidable (_ ∈ _))

def removedReply (n : Nat) : Bytes := bytes "Removed " ++ stdToString n ++ bytes " entries"

def refusedReply : Bytes := bytes "db rm: author != user"

variable {X}

theorem removedReply_injective : Function.Injective removedReply := fun _ _ same =>
  stdToString_injective (List.append_cancel_left (List.append_cancel_right same))

theorem refusedReply_ne (n : Nat) : removedReply n ≠ refusedReply := by
  intro same
  have heads := congrArg List.head? same
  rw [show (removedReply n).head? = some 82 from rfl] at heads
  revert heads
  decide

/-! ## One document -/

section Well

variable {db : Database} (well : WellStored X db)
include well

theorem WellStored.indexed {doc : Doc Bytes Bytes} (stored : doc ∈ db) (hash : Bytes) :
    hashTerm hash ∈ doc.terms ↔ X.sha256 doc.data = hash := by
  rw [well.keyed.carries doc stored _ (isHashTerm_hashTerm _)]
  exact ⟨fun same => (hashTerm_injective same).symm, fun same => congrArg hashTerm same.symm⟩

theorem WellStored.postings_one {doc : Doc Bytes Bytes} (stored : doc ∈ db) :
    postings (hashTerm (X.sha256 doc.data)) db = [doc] :=
  well.keyed.postings stored (isHashTerm_hashTerm _)

theorem WellStored.postings_nil {hash : Bytes} (absent : hash ∉ hashes X db) :
    postings (hashTerm hash) db = [] := by
  refine List.filter_eq_nil_iff.mpr fun doc stored carries => ?_
  have same := (well.indexed stored hash).mp (by simpa using carries)
  exact absent (mem_hashes.mpr ⟨doc, stored, same⟩)

theorem WellStored.delete_eq (hash : Bytes) :
    delete (hashTerm hash) db = db.filter fun doc => decide (X.sha256 doc.data ≠ hash) :=
  List.filter_congr fun _ stored => decide_eq_decide.mpr (not_congr (well.indexed stored hash))

theorem WellStored.deleted (term : Bytes) : WellStored X (delete term db) :=
  ⟨well.keyed.delete _, fun doc member => well.written doc (mem_delete.mp member).1⟩

/-- Deleting under the hash of a stored document drops that one. -/
theorem WellStored.length_delete {doc : Doc Bytes Bytes} (stored : doc ∈ db) :
    (delete (hashTerm (X.sha256 doc.data)) db).length + 1 = db.length := by
  have one : (postings (hashTerm (X.sha256 doc.data)) db).length = 1 :=
    congrArg List.length (well.postings_one stored)
  have split := length_postings_add_delete (hashTerm (X.sha256 doc.data)) db
  omega

/-- A stored entry parses. -/
theorem WellStored.read {doc : Doc Bytes Bytes} (stored : doc ∈ db) :
    ∃ ndoc, Document.deserialize X doc.data = .ok (some ndoc) ∧
      ndoc.author = authorOf X doc.data := by
  obtain ⟨d, written⟩ := well.written doc stored
  rw [authorOf, written, Document.deserialize_serialize]
  exact ⟨_, rfl, rfl⟩

end Well

/-! ## One hash -/

section Step

variable {db : Database} {author hash : Bytes} {hashesToDelete rest : List Bytes} {n : Nat}

theorem assert_sized (sized : hash.length = 32) :
    X.assert .dbRmDocs (hash.length == 32) = .ok () :=
  Platform.assert_eq_ok.mpr (.inr (by simp [sized]))

/-- A hash that nothing is stored under, or that was not asked for. -/
theorem rmDocs_skip (well : WellStored X db)
    (passes : X.assert .dbRmDocs (hash.length == 32) = .ok ())
    (other : ∀ doc ∈ db, X.sha256 doc.data = hash → ¬ Wanted X hashesToDelete doc) :
    rmDocs X author hashesToDelete db n (hash :: rest) =
      rmDocs X author hashesToDelete db n rest := by
  rw [rmDocs, passes]
  simp only [bind, Except.bind]
  by_cases known : hash ∈ hashes X db
  · obtain ⟨doc, stored, rfl⟩ := mem_hashes.mp known
    rw [well.postings_one stored]
    exact if_neg (other doc stored rfl)
  · rw [well.postings_nil known]
    rfl

/-- A hash that was asked for. -/
theorem rmDocs_wanted (well : WellStored X db) {doc : Doc Bytes Bytes} (stored : doc ∈ db)
    (wanted : Wanted X hashesToDelete doc) :
    rmDocs X author hashesToDelete db n (X.sha256 doc.data :: rest) =
      if author = authorOf X doc.data then
        rmDocs X author hashesToDelete (delete (hashTerm (X.sha256 doc.data)) db) (n + 1) rest
      else .ok (db, refusedReply) := by
  obtain ⟨ndoc, read, same⟩ := well.read stored
  rw [rmDocs, assert_sized (X.sha256_length _)]
  simp only [bind, Except.bind]
  rw [well.postings_one stored]
  refine (if_pos wanted).trans ?_
  rw [read, ← same]
  rfl

end Step

/-! ## The walk -/

/-- What is left after a walk that refuses nothing. -/
def withoutWanted (X : Platform) (hashesToDelete order : List Bytes) (db : Database) : Database :=
  db.filter fun doc => decide ¬ (X.sha256 doc.data ∈ order ∧ Wanted X hashesToDelete doc)

/-- **All that was asked for is the author's**: the walk removes it, and counts right. -/
theorem rmDocs_own {author : Bytes} {hashesToDelete : List Bytes} (order : List Bytes)
    {db : Database} (well : WellStored X db) (sized : ∀ hash ∈ order, hash.length = 32)
    (own : ∀ doc ∈ db, Wanted X hashesToDelete doc → author = authorOf X doc.data) (n : Nat) :
    ∃ k, k + (withoutWanted X hashesToDelete order db).length = n + db.length ∧
      rmDocs X author hashesToDelete db n order =
        .ok (withoutWanted X hashesToDelete order db, removedReply k) := by
  induction order generalizing db n with
  | nil =>
      have all : withoutWanted X hashesToDelete [] db = db :=
        List.filter_eq_self.mpr fun doc _ => by simp
      rw [all]
      exact ⟨n, rfl, rfl⟩
  | cons hash rest ih =>
      have sizedRest : ∀ h ∈ rest, h.length = 32 := fun h inRest => sized h (by simp [inRest])
      by_cases asked : ∃ doc ∈ db, X.sha256 doc.data = hash ∧ Wanted X hashesToDelete doc
      · obtain ⟨doc, stored, rfl, wanted⟩ := asked
        have smaller := well.deleted (hashTerm (X.sha256 doc.data))
        obtain ⟨k, count, done⟩ := ih smaller sizedRest
          (fun doc' member => own doc' (mem_delete.mp member).1) (n + 1)
        have same : withoutWanted X hashesToDelete rest
            (delete (hashTerm (X.sha256 doc.data)) db) =
            withoutWanted X hashesToDelete (X.sha256 doc.data :: rest) db := by
          rw [well.delete_eq, withoutWanted, withoutWanted, List.filter_filter]
          refine List.filter_congr fun doc' stored' => ?_
          -- another document under this hash would be this one
          have unique : X.sha256 doc'.data = X.sha256 doc.data →
              Wanted X hashesToDelete doc' := fun same => by
            rw [well.unique stored' stored same]
            exact wanted
          by_cases this : X.sha256 doc'.data = X.sha256 doc.data
          · simp [this, unique this]
          · simp [this]
        have length := well.length_delete stored
        refine ⟨k, ?_, ?_⟩
        · rw [← same, count]
          omega
        · rw [rmDocs_wanted well stored wanted, if_pos (own doc stored wanted), done, same]
      · have other : ∀ doc ∈ db, X.sha256 doc.data = hash → ¬ Wanted X hashesToDelete doc :=
          fun doc stored same wanted => asked ⟨doc, stored, same, wanted⟩
        obtain ⟨k, count, done⟩ := ih well sizedRest own n
        have same : withoutWanted X hashesToDelete rest db =
            withoutWanted X hashesToDelete (hash :: rest) db := by
          refine List.filter_congr fun doc stored => ?_
          by_cases this : X.sha256 doc.data = hash
          · simp [other doc stored this]
          · simp [this]
        rw [rmDocs_skip well (assert_sized (sized hash (by simp))) other, done, ← same]
        exact ⟨k, count, rfl⟩

/-- **None of what was asked for is the author's**: the first of it ends the walk. -/
theorem rmDocs_foreign {author : Bytes} {hashesToDelete : List Bytes} (order : List Bytes)
    {db : Database} (well : WellStored X db) (sized : ∀ hash ∈ order, hash.length = 32)
    (foreign : ∀ doc ∈ db, Wanted X hashesToDelete doc → author ≠ authorOf X doc.data)
    (some_ : ∃ doc ∈ db, X.sha256 doc.data ∈ order ∧ Wanted X hashesToDelete doc) (n : Nat) :
    rmDocs X author hashesToDelete db n order = .ok (db, refusedReply) := by
  induction order with
  | nil => obtain ⟨_, _, impossible, _⟩ := some_; cases impossible
  | cons hash rest ih =>
      by_cases asked : ∃ doc ∈ db, X.sha256 doc.data = hash ∧ Wanted X hashesToDelete doc
      · obtain ⟨doc, stored, rfl, wanted⟩ := asked
        rw [rmDocs_wanted well stored wanted, if_neg (foreign doc stored wanted)]
      · have other : ∀ doc ∈ db, X.sha256 doc.data = hash → ¬ Wanted X hashesToDelete doc :=
          fun doc stored same wanted => asked ⟨doc, stored, same, wanted⟩
        obtain ⟨doc, stored, listed, wanted⟩ := some_
        have later : X.sha256 doc.data ∈ rest :=
          (List.mem_cons.mp listed).resolve_left fun same => other doc stored same wanted
        rw [rmDocs_skip well (assert_sized (sized hash (by simp))) other]
        exact ih (fun h inRest => sized h (by simp [inRest])) ⟨doc, stored, later, wanted⟩

/-- **The count of a removal is right**, whatever it ran into. -/
theorem rmDocs_count {author reply : Bytes} {hashesToDelete : List Bytes} (order : List Bytes)
    {db db' : Database} (well : WellStored X db) {n : Nat}
    (removed : rmDocs X author hashesToDelete db n order = .ok (db', reply)) :
    reply = refusedReply ∨ ∃ k, reply = removedReply k ∧ k + db'.length = n + db.length := by
  induction order generalizing db n with
  | nil =>
      cases removed
      exact .inr ⟨n, rfl, rfl⟩
  | cons hash rest ih =>
      by_cases asked : ∃ doc ∈ db, X.sha256 doc.data = hash ∧ Wanted X hashesToDelete doc
      · obtain ⟨doc, stored, rfl, wanted⟩ := asked
        rw [rmDocs_wanted well stored wanted] at removed
        split at removed
        · refine (ih (well.deleted _) removed).imp_right ?_
          rintro ⟨k, said, count⟩
          have length := well.length_delete stored
          exact ⟨k, said, by omega⟩
        · cases removed
          exact .inl rfl
      · have other : ∀ doc ∈ db, X.sha256 doc.data = hash → ¬ Wanted X hashesToDelete doc :=
          fun doc stored same wanted => asked ⟨doc, stored, same, wanted⟩
        have passes : X.assert .dbRmDocs (hash.length == 32) = .ok () := by
          rw [rmDocs, bind_eq_ok] at removed
          obtain ⟨⟨⟩, passes, -⟩ := removed
          exact passes
        rw [rmDocs_skip well passes other] at removed
        exact ih well removed

/-! ## A whole removal -/

variable (X) in
/-- Somebody else's document was asked for. -/
def AsksForeign (author : Bytes) (hashesToDelete : List Bytes) (db : Database) : Prop :=
  ∃ doc ∈ db, Wanted X hashesToDelete doc ∧ author ≠ authorOf X doc.data

variable (X) in
/-- In every order of the hashes: a removal that asks for somebody else's document is refused and
changes nothing, any other removes what it asks for and nothing else; and no order makes a
difference. -/
structure AllOrNothing (author : Bytes) (hashesToDelete : List Bytes) (db : Database) : Prop where
  refused : ∀ order, order.Perm (hashes X db) → AsksForeign X author hashesToDelete db →
    dbRmDocs X author db hashesToDelete order = .ok (db, refusedReply)
  removed : ∀ order, order.Perm (hashes X db) → ¬ AsksForeign X author hashesToDelete db →
    ∃ reply, dbRmDocs X author db hashesToDelete order =
      .ok (db.filter fun doc => decide ¬ Wanted X hashesToDelete doc, reply)
  anyOrder : ∀ order order', order.Perm (hashes X db) → order'.Perm (hashes X db) →
    dbRmDocs X author db hashesToDelete order = dbRmDocs X author db hashesToDelete order'

section Whole

variable {author : Bytes} {hashesToDelete order : List Bytes} {db : Database}

theorem sized_of_perm (perm : order.Perm (hashes X db)) : ∀ hash ∈ order, hash.length = 32 :=
  fun _ member => length_of_mem_hashes (perm.mem_iff.mp member)

theorem withoutWanted_all (perm : order.Perm (hashes X db)) :
    withoutWanted X hashesToDelete order db =
      db.filter fun doc => decide ¬ Wanted X hashesToDelete doc := by
  refine List.filter_congr fun doc stored => ?_
  have listed : X.sha256 doc.data ∈ order := perm.mem_iff.mpr (mem_hashes.mpr ⟨doc, stored, rfl⟩)
  simp [listed]

/-- What a removal does that is all the author's, in any order. -/
theorem dbRmDocs_own (well : WellStored X db)
    (own : ∀ doc ∈ db, Wanted X hashesToDelete doc → author = authorOf X doc.data)
    (perm : order.Perm (hashes X db)) :
    dbRmDocs X author db hashesToDelete order =
      .ok (db.filter fun doc => decide ¬ Wanted X hashesToDelete doc,
        if db = [] then bytes "no docs"
        else removedReply (db.countP fun doc => decide (Wanted X hashesToDelete doc))) := by
  unfold dbRmDocs
  by_cases none_ : db = []
  · subst none_
    rfl
  obtain ⟨k, count, done⟩ := rmDocs_own order well (sized_of_perm perm) own 0
  have split := @List.length_eq_length_filter_add _ db
    fun doc => decide (Wanted X hashesToDelete doc)
  have same : k = db.countP fun doc => decide (Wanted X hashesToDelete doc) := by
    rw [withoutWanted_all perm] at count
    rw [List.countP_eq_length_filter]
    simp only [decide_not] at count
    omega
  rw [if_neg (by rwa [getDoccount_eq_zero]), if_neg none_, done, withoutWanted_all perm, same]

/-- What a removal does none of which is the author's, in any order. -/
theorem dbRmDocs_foreign (well : WellStored X db)
    (foreign : ∀ doc ∈ db, Wanted X hashesToDelete doc → author ≠ authorOf X doc.data)
    (some_ : ∃ doc ∈ db, Wanted X hashesToDelete doc) (perm : order.Perm (hashes X db)) :
    dbRmDocs X author db hashesToDelete order = .ok (db, refusedReply) := by
  obtain ⟨doc, stored, wanted⟩ := some_
  unfold dbRmDocs
  rw [if_neg (by rw [getDoccount_eq_zero]; exact List.ne_nil_of_mem stored)]
  exact rmDocs_foreign order well (sized_of_perm perm) foreign
    ⟨doc, stored, perm.mem_iff.mpr (mem_hashes.mpr ⟨doc, stored, rfl⟩), wanted⟩ 0

/-- If the first hash is that of a document of the author, that document goes. -/
theorem dbRmDocs_first {doc : Doc Bytes Bytes} {db' : Database} {reply : Bytes}
    (well : WellStored X db) (stored : doc ∈ db) (wanted : Wanted X hashesToDelete doc)
    (own : author = authorOf X doc.data)
    (removed : dbRmDocs X author db hashesToDelete (X.sha256 doc.data :: order) = .ok (db', reply)) :
    doc ∉ db' := by
  unfold dbRmDocs at removed
  rw [if_neg (by rw [getDoccount_eq_zero]; exact List.ne_nil_of_mem stored),
    rmDocs_wanted well stored wanted, if_pos own] at removed
  intro still
  have smaller := (rmDocs_wellStored (well.deleted _) removed).2 doc still
  exact (mem_delete.mp smaller).2 ((well.indexed stored _).mpr rfl)

end Whole

/-- **A removal is all or nothing, and the same in every order, exactly when the documents it asks
for are all the author's or none of them is**: for each well-kept database. -/
theorem removal_all_or_nothing {author : Bytes} {hashesToDelete : List Bytes} {db : Database}
    (well : WellStored X db) :
    AllOrNothing X author hashesToDelete db ↔
      (∀ doc ∈ db, Wanted X hashesToDelete doc → author = authorOf X doc.data) ∨
        ∀ doc ∈ db, Wanted X hashesToDelete doc → author ≠ authorOf X doc.data := by
  constructor
  · intro whole
    by_contra mixed
    push Not at mixed
    obtain ⟨⟨foreign, inDb, wanted, other⟩, ⟨own, stored, wanted', same⟩⟩ := mixed
    -- the order that starts with the document of the author
    have member : X.sha256 own.data ∈ hashes X db := mem_hashes.mpr ⟨own, stored, rfl⟩
    have perm := List.perm_cons_erase member
    have refused := whole.refused _ perm.symm ⟨foreign, inDb, wanted, other⟩
    exact dbRmDocs_first well stored wanted' same refused stored
  · rintro (own | foreign)
    · have notForeign : ¬ AsksForeign X author hashesToDelete db :=
        fun ⟨doc, stored, wanted, other⟩ => other (own doc stored wanted)
      exact ⟨fun _ _ asks => absurd asks notForeign,
        fun order perm _ => ⟨_, dbRmDocs_own well own perm⟩,
        fun order order' perm perm' =>
          (dbRmDocs_own well own perm).trans (dbRmDocs_own well own perm').symm⟩
    · by_cases some_ : ∃ doc ∈ db, Wanted X hashesToDelete doc
      · obtain ⟨doc, stored, wanted⟩ := some_
        have asks : AsksForeign X author hashesToDelete db :=
          ⟨doc, stored, wanted, foreign doc stored wanted⟩
        have refused := fun (order : List Bytes) (perm : order.Perm (hashes X db)) =>
          dbRmDocs_foreign well foreign ⟨doc, stored, wanted⟩ perm
        exact ⟨fun order perm _ => refused order perm, fun _ _ none_ => absurd asks none_,
          fun order order' perm perm' => (refused order perm).trans (refused order' perm').symm⟩
      · have own : ∀ doc ∈ db, Wanted X hashesToDelete doc → author = authorOf X doc.data :=
          fun doc stored wanted => absurd ⟨doc, stored, wanted⟩ some_
        exact ⟨fun _ _ ⟨doc, stored, wanted, _⟩ => absurd ⟨doc, stored, wanted⟩ some_,
          fun order perm _ => ⟨_, dbRmDocs_own well own perm⟩,
          fun order order' perm perm' =>
            (dbRmDocs_own well own perm).trans (dbRmDocs_own well own perm').symm⟩

/-! ## Two users -/

section TwoUsers

open Reference

/-- An ad of `alice` and one of `nobody`. -/
def twoUsers : Database :=
  [xapianDoc (reference true) alice (ad 1), xapianDoc (reference true) nobody (ad 1)]

theorem twoUsers_wellStored : WellStored (reference true) twoUsers := by
  have first : addDocument (reference true) alice [] (ad 1) =
      .ok ([xapianDoc (reference true) alice (ad 1)], sha256 (aliceEntry "1")) := by
    decide +kernel
  have second : addDocument (reference true) nobody
      [xapianDoc (reference true) alice (ad 1)] (ad 1) =
      .ok (twoUsers, sha256 (entry "1" "")) := by
    decide +kernel
  exact addDocument_wellStored (addDocument_wellStored .nil first) second

/-- It applies to a removal of the one that is the author's. -/
theorem removal_all_or_nothing_alice : AllOrNothing (reference true) alice
    [hex (sha256 (aliceEntry "1"))] twoUsers :=
  (removal_all_or_nothing twoUsers_wellStored).mpr (.inl (by decide +kernel))

/-- `alice` asks for both, and hers comes first: it is gone, although the answer is a refusal. -/
theorem half_removed : ¬ ∀ (author : Bytes) (hashesToDelete : List Bytes) (db : Database),
    WellStored (reference true) db → AllOrNothing (reference true) author hashesToDelete db := by
  intro all
  have whole := all alice [hex (sha256 (aliceEntry "1")), hex (sha256 (entry "1" ""))] twoUsers
    twoUsers_wellStored
  have stored : xapianDoc (reference true) alice (ad 1) ∈ twoUsers := List.mem_cons_self
  have refused := whole.refused [sha256 (aliceEntry "1"), sha256 (entry "1" "")]
    (by decide +kernel) (by unfold AsksForeign; decide +kernel)
  have gone := dbRmDocs_first twoUsers_wellStored stored (by decide +kernel) (by decide +kernel)
    refused
  exact gone stored

end TwoUsers

end Piac
