/-
# Daemon.Answering — one reply to every request

What the programs of `Daemon.Rpc` do, whatever the outcomes of their Xapian calls.
`At sent` says that the world is sound and that `sent` has gone out on the REP
socket: every entry on disk and in the open database was written by
`Document::serialize`, and the hashes in `my_hashes` have the size that
`db_rm_docs` asserts. There is one triple for each function of `db.cpp`; a block
inside a `try` may throw a Xapian error, and the functions around such blocks throw
nothing. The exception is `index_db`, which opens its database before the `try` and
reads a file that a client names.

`rpc_answers_once` puts them together: a request is answered, and answered once,
exactly if it is `Serviceable`.
-/
import Mathlib
import Piac.Daemon.Rpc

namespace Piac

set_option autoImplicit false
set_option mvcgen.warning false

open Piac.Theory.CppString Piac.Theory.TermStore Piac.Theory.Transition
open Std.Do

variable {X : Platform}

/-! ## Sound worlds -/

variable (X) in
/-- Every entry is the text of a document. -/
def Written (db : Database) : Prop :=
  ∀ doc ∈ db, ∃ d : Document X.Num, doc.data = Document.serialize X d

def Sized (hashes : List Bytes) : Prop := ∀ h ∈ hashes, h.length = 32

variable (X) in
def At (sent : List Bytes) (w : World) : Prop :=
  Written X w.disk ∧ Written X w.view ∧ Sized w.myHashes ∧ w.replies = sent

theorem Written.nil : Written X [] := fun _ member => absurd member List.not_mem_nil

theorem Written.replace {db : Database} (written : Written X db) (author : Bytes)
    (ndoc : Document X.Num) (t : Bytes) :
    Written X (replace t (xapianDoc X author ndoc) db) := by
  intro doc member
  rcases mem_replace.mp member with rfl | ⟨old, -⟩
  · exact ⟨_, rfl⟩
  · exact written doc old

theorem Written.delete {db : Database} (written : Written X db) (t : Bytes) :
    Written X (delete t db) := fun doc member => written doc (mem_delete.mp member).1

/-- A stored entry is read without a fault. -/
theorem Written.read {db : Database} (written : Written X db) {doc : Doc Bytes Bytes}
    (member : doc ∈ db) : ∃ d, Document.deserialize X doc.data = .ok (some d) := by
  obtain ⟨d, same⟩ := written doc member
  exact ⟨_, same ▸ Document.deserialize_serialize d⟩

theorem Written.of_postings {db : Database} (written : Written X db) {t : Bytes}
    {doc : Doc Bytes Bytes} (found : (postings t db).head? = some doc) :
    ∃ d, Document.deserialize X doc.data = .ok (some d) :=
  written.read (List.mem_filter.mp (List.mem_of_head? found)).1

/-! ## Requests that get an answer -/

/-- The Xapian calls that `index_db` makes before its `try` return. -/
def Opens (outcomes : List Outcome) : Prop := ∀ o ∈ outcomes.take 2, o ≠ .raises

instance (outcomes : List Outcome) : Decidable (Opens outcomes) :=
  inferInstanceAs (Decidable (∀ o ∈ outcomes.take 2, o ≠ .raises))

theorem opens_iff {outcomes : List Outcome} : Opens outcomes ↔
    outcomes.head? ≠ some .raises ∧ outcomes.tail.head? ≠ some .raises := by
  unfold Opens
  match outcomes with
  | [] => simp
  | [_] => simp
  | _ :: _ :: _ => simp

variable (X) in
/-- The file is no JSON, or a document or an array of documents. -/
def Readable (content : Bytes) : Prop := ∃ docs, Document.deserializeAll X content = .ok docs

variable (X) in
/-- A request that gets an answer: there is a byte in front of its last `AUTH:`; a Debug build
is told a user with a `db add` or a `db rm`; and if it is a `db add` of a file that can be
opened, so can the database, and the file is readable. -/
structure Serviceable (files : Files) (outcomes : List Outcome) (msg : Bytes) : Prop where
  auth : ¬ StartsAuth msg
  named : ∀ q, Request.read (commandOf msg) = .add q ∨ Request.read (commandOf msg) = .rm q →
    X.ndebug = true ∨ userOf msg ≠ []
  file : ∀ content, (Request.read (commandOf msg)).content files = some content →
    Opens outcomes ∧ Readable X content

namespace Rpc

/-! ## Calls, blocks and scopes -/

variable (sent : List Bytes)

theorem restore_save (w w' : World) :
    EStateM.Backtrackable.restore w (EStateM.Backtrackable.save w') = w := rfl

@[spec] theorem call_spec (w₀ : World) : ⦃fun w => ⌜w = w₀⌝⦄ call
    ⦃post⟨fun _ w => ⌜w₀.outcomes.head? ≠ some .raises ∧
        w = { w₀ with outcomes := w₀.outcomes.tail }⌝,
      fun e w => ⌜w₀.outcomes.head? = some .raises ∧ e = .xapian ∧
        w = { w₀ with outcomes := w₀.outcomes.tail }⌝⟩⦄ := by
  mvcgen [call] <;> simp_all

@[spec] theorem lift_spec {α : Type} (x : Except Fault α) (w₀ : World) :
    ⦃fun w => ⌜w = w₀⌝⦄ lift x
    ⦃post⟨fun a w => ⌜x = .ok a ∧ w = w₀⌝,
      fun e w => ⌜(∃ f, e = .fault f ∧ x = .error f) ∧ w = w₀⌝⟩⦄ := by
  cases x with
  | ok a =>
      mvcgen [lift]
  | error f =>
      mvcgen [lift]
      grind

@[spec] theorem assert_spec (site : Site) (c : Bool) (w₀ : World) :
    ⦃fun w => ⌜w = w₀⌝⦄ assert X site c
    ⦃post⟨fun _ w => ⌜(X.ndebug = true ∨ c = true) ∧ w = w₀⌝,
      fun e w => ⌜(e = .fault (.assertion site) ∧ X.ndebug = false ∧ c = false) ∧ w = w₀⌝⟩⦄ := by
  mvcgen [assert]
  all_goals simp_all [Platform.assert_eq_ok, Platform.assert_eq_error]

theorem change_spec (f : Database → Database) (keeps : ∀ db, Written X db → Written X (f db)) :
    ⦃fun w => ⌜At X sent w⌝⦄ change f
    ⦃post⟨fun _ w => ⌜At X sent w⌝, fun e w => ⌜e = .xapian ∧ At X sent w⌝⟩⦄ := by
  mvcgen [change]
  all_goals simp_all +zetaDelta [At]

theorem commit_spec : ⦃fun w => ⌜At X sent w⌝⦄ commit
    ⦃post⟨fun _ w => ⌜At X sent w⌝, fun e w => ⌜e = .xapian ∧ At X sent w⌝⟩⦄ := by
  mvcgen [commit]
  all_goals simp_all +zetaDelta [At]

theorem close_spec : ⦃fun w => ⌜At X sent w⌝⦄ close
    ⦃post⟨fun _ w => ⌜At X sent w⌝, fun _ _ => ⌜False⌝⟩⦄ := by
  have commits := commit_spec (X := X) sent
  mvcgen [close, commits]
  all_goals simp_all [restore_save]

/-- From a `try` block only what is no Xapian error gets out. -/
theorem attempt_spec {α : Type} {block : Op (Option α)} {Other : Thrown → Prop}
    (raises : ⦃fun w => ⌜At X sent w⌝⦄ block
      ⦃post⟨fun _ w => ⌜At X sent w⌝, fun e w => ⌜(e = .xapian ∨ Other e) ∧ At X sent w⌝⟩⦄) :
    ⦃fun w => ⌜At X sent w⌝⦄ attempt block
    ⦃post⟨fun _ w => ⌜At X sent w⌝, fun e w => ⌜Other e ∧ At X sent w⌝⟩⦄ := by
  mvcgen [attempt, raises]
  all_goals grind [restore_save]

theorem writable_spec {α : Type} {block : Op α} {Other : Thrown → Prop}
    (raises : ⦃fun w => ⌜At X sent w⌝⦄ block
      ⦃post⟨fun _ w => ⌜At X sent w⌝, fun e w => ⌜(e = .xapian ∨ Other e) ∧ At X sent w⌝⟩⦄) :
    ⦃fun w => ⌜At X sent w⌝⦄ writable block
    ⦃post⟨fun _ w => ⌜At X sent w⌝, fun e w => ⌜(e = .xapian ∨ Other e) ∧ At X sent w⌝⟩⦄ := by
  have closes := close_spec (X := X) sent
  mvcgen [writable, raises, closes]
  all_goals grind [At, restore_save]

/-! ## Loops -/

theorem addDocument_spec {author : Bytes} (ndoc : Document X.Num)
    (named : X.ndebug = true ∨ author ≠ []) :
    ⦃fun w => ⌜At X sent w⌝⦄ addDocument X author ndoc
    ⦃post⟨fun _ w => ⌜At X sent w⌝, fun e w => ⌜e = .xapian ∧ At X sent w⌝⟩⦄ := by
  have changes := change_spec sent _ fun db (written : Written X db) =>
    written.replace author ndoc (hashTerm (X.sha256 (entryOf X author ndoc)))
  mvcgen [addDocument, changes]
  all_goals grind [At]

theorem indexDocs_spec {author : Bytes} (docs : List (Document X.Num))
    (named : X.ndebug = true ∨ author ≠ []) :
    ⦃fun w => ⌜At X sent w⌝⦄ indexDocs X author docs
    ⦃post⟨fun _ w => ⌜At X sent w⌝, fun e w => ⌜e = .xapian ∧ At X sent w⌝⟩⦄ := by
  induction docs with
  | nil => mvcgen [indexDocs]
  | cons d rest ih =>
      have adds := @addDocument_spec X sent author
      mvcgen [indexDocs, adds, ih]

theorem putDocs_spec (docs : List Bytes) :
    ⦃fun w => ⌜At X sent w⌝⦄ putDocs X docs
    ⦃post⟨fun _ w => ⌜At X sent w⌝, fun _ w => ⌜At X sent w⌝⟩⦄ := by
  induction docs with
  | nil => mvcgen [putDocs]
  | cons d rest ih =>
      have adds := fun author => @addDocument_spec X sent author
      mvcgen [putDocs, adds, ih]
      all_goals grind [At]

theorem getDocs_spec (hashes : List Bytes) :
    ⦃fun w => ⌜At X sent w⌝⦄ getDocs X hashes
    ⦃post⟨fun _ w => ⌜At X sent w⌝, fun _ w => ⌜At X sent w⌝⟩⦄ := by
  induction hashes with
  | nil => mvcgen [getDocs]
  | cons h rest ih =>
      mvcgen [getDocs, ih]
      all_goals grind [At]

/-- `db_rm_docs` goes through hashes of the right size and reads stored entries. -/
theorem rmDocs_spec {author : Bytes} {hashesToDelete myHashes : List Bytes}
    (sized : Sized myHashes) :
    ⦃fun w => ⌜At X sent w⌝⦄ rmDocs X author hashesToDelete myHashes
    ⦃post⟨fun _ w => ⌜At X sent w⌝, fun e w => ⌜e = .xapian ∧ At X sent w⌝⟩⦄ := by
  induction myHashes with
  | nil => mvcgen [rmDocs]
  | cons h rest ih =>
      have size := sized h List.mem_cons_self
      have later := ih fun h' inRest => sized h' (List.mem_cons_of_mem _ inRest)
      have changes := change_spec sent _ fun db (written : Written X db) =>
        written.delete (hashTerm h)
      mvcgen [rmDocs, changes, later]
      all_goals grind [At, Written.of_postings]

/-- A listing collects what `item` makes of entries. -/
theorem eachDoc_spec {item : Bytes → Except Fault Bytes} {P : Bytes → Prop} {db : Database}
    (reads : ∀ doc ∈ db, ∃ b, item doc.data = .ok b ∧ P b) :
    ⦃fun w => ⌜At X sent w ∧ ∀ b ∈ w.items, P b⌝⦄ eachDoc item db
    ⦃post⟨fun _ w => ⌜At X sent w ∧ ∀ b ∈ w.items, P b⌝,
      fun e w => ⌜e = .xapian ∧ At X sent w ∧ ∀ b ∈ w.items, P b⌝⟩⦄ := by
  induction db with
  | nil => mvcgen [eachDoc]
  | cons doc rest ih =>
      have first := reads doc List.mem_cons_self
      have later := ih fun doc' inRest => reads doc' (List.mem_cons_of_mem _ inRest)
      mvcgen [eachDoc, later]
      all_goals grind [At]

/-! ## Functions -/

theorem getDoccount_spec : ⦃fun w => ⌜At X sent w⌝⦄ getDoccount
    ⦃post⟨fun _ w => ⌜At X sent w⌝, fun _ _ => ⌜False⌝⟩⦄ := by
  mvcgen [getDoccount, attempt]
  all_goals grind [At, restore_save]

theorem dbQuery_spec (cmd : Bytes) : ⦃fun w => ⌜At X sent w⌝⦄ dbQuery X cmd
    ⦃post⟨fun _ w => ⌜At X sent w⌝, fun _ _ => ⌜False⌝⟩⦄ := by
  mvcgen [dbQuery, attempt]
  all_goals grind [At, restore_save]

theorem dbGetDocs_spec (hashes : List Bytes) : ⦃fun w => ⌜At X sent w⌝⦄ dbGetDocs X hashes
    ⦃post⟨fun _ w => ⌜At X sent w⌝, fun _ w => ⌜At X sent w⌝⟩⦄ := by
  have loop := @getDocs_spec X sent hashes
  mvcgen [dbGetDocs, attempt, loop]
  all_goals grind [At, restore_save]

theorem dbPutDocs_spec (docs : List Bytes) : ⦃fun w => ⌜At X sent w⌝⦄ dbPutDocs X docs
    ⦃post⟨fun _ w => ⌜At X sent w⌝, fun _ w => ⌜At X sent w⌝⟩⦄ := by
  have loop := @putDocs_spec X sent docs
  have commits := @commit_spec X sent
  have block : ⦃fun w => ⌜At X sent w⌝⦄ putInto X docs
      ⦃post⟨fun _ w => ⌜At X sent w⌝, fun e w => ⌜(e = .xapian ∨ True) ∧ At X sent w⌝⟩⦄ := by
    mvcgen [putInto, loop, commits]
    all_goals grind [At]
  have whole := attempt_spec sent (writable_spec sent block)
  mvcgen [dbPutDocs, whole]
  all_goals grind

theorem dbRmDocs_spec (author : Bytes) (hashesToDelete : List Bytes) :
    ⦃fun w => ⌜At X sent w⌝⦄ dbRmDocs X author hashesToDelete
    ⦃post⟨fun _ w => ⌜At X sent w⌝, fun _ _ => ⌜False⌝⟩⦄ := by
  have loop := @rmDocs_spec X sent author hashesToDelete
  have block : ⦃fun w => ⌜At X sent w⌝⦄ rmFrom X author hashesToDelete
      ⦃post⟨fun _ w => ⌜At X sent w⌝, fun e w => ⌜(e = .xapian ∨ False) ∧ At X sent w⌝⟩⦄ := by
    mvcgen [rmFrom, loop]
    all_goals grind [At]
  have whole := attempt_spec sent (writable_spec sent block)
  mvcgen [dbRmDocs, whole]
  all_goals grind [At]

/-- What `item` makes of the text of every document, it makes of every entry. -/
theorem Written.reads {item : Bytes → Except Fault Bytes} {P : Bytes → Prop}
    (reads : ∀ d : Document X.Num, ∃ b, item (Document.serialize X d) = .ok b ∧ P b)
    {db : Database} (written : Written X db) : ∀ doc ∈ db, ∃ b, item doc.data = .ok b ∧ P b := by
  intro doc member
  obtain ⟨d, same⟩ := written doc member
  rw [same]
  exact reads d

theorem itemsOf_spec {item : Bytes → Except Fault Bytes} {P : Bytes → Prop}
    (reads : ∀ d : Document X.Num, ∃ b, item (Document.serialize X d) = .ok b ∧ P b) :
    ⦃fun w => ⌜At X sent w⌝⦄ itemsOf item
    ⦃post⟨fun items w => ⌜At X sent w ∧ ∀ b ∈ items, P b⌝, fun _ _ => ⌜False⌝⟩⦄ := by
  have loop := fun db => @eachDoc_spec X sent item P db
  have every := fun db => @Written.reads X item P reads db
  mvcgen [itemsOf, attempt, loop]
  all_goals grind [At, restore_save]

theorem dbListHash_spec (inhex : Bool) : ⦃fun w => ⌜At X sent w⌝⦄ dbListHash X inhex
    ⦃post⟨fun items w => ⌜At X sent w ∧ (inhex = false → Sized items)⌝, fun _ _ => ⌜False⌝⟩⦄ := by
  have items := @itemsOf_spec X sent (hashItem X inhex) (fun b => inhex = false → b.length = 32)
    fun d => ⟨_, rfl, fun plain => by simp [plain, X.sha256_length]⟩
  mvcgen [dbListHash, items]
  all_goals grind [Sized]

theorem docItem_ok (d : Document X.Num) : ∃ b, docItem X (Document.serialize X d) = .ok b ∧ True :=
  ⟨_, by rw [docItem, Document.deserialize_serialize]; rfl, trivial⟩

theorem userItem_ok (d : Document X.Num) :
    ∃ b, userItem X (Document.serialize X d) = .ok b ∧ True :=
  ⟨_, by rw [userItem, Document.deserialize_serialize]; rfl, trivial⟩

theorem dbListDoc_spec : ⦃fun w => ⌜At X sent w⌝⦄ dbListDoc X
    ⦃post⟨fun _ w => ⌜At X sent w⌝, fun _ _ => ⌜False⌝⟩⦄ := by
  have items := @itemsOf_spec X sent (docItem X) (fun _ => True) docItem_ok
  mvcgen [dbListDoc, items]
  all_goals grind

theorem dbListNumuser_spec : ⦃fun w => ⌜At X sent w⌝⦄ dbListNumuser X
    ⦃post⟨fun _ w => ⌜At X sent w⌝, fun _ _ => ⌜False⌝⟩⦄ := by
  have every := fun db => @Written.reads X (userItem X) (fun _ => True) userItem_ok db
  have loop := fun db => @eachDoc_spec X sent (userItem X) (fun _ => True) db
  mvcgen [dbListNumuser, attempt, loop]
  all_goals grind [At, restore_save]

theorem dbList_spec (cmd : Bytes) : ⦃fun w => ⌜At X sent w⌝⦄ dbList X cmd
    ⦃post⟨fun _ w => ⌜At X sent w⌝, fun _ _ => ⌜False⌝⟩⦄ := by
  have docs := @dbListDoc_spec X sent
  have count := @getDoccount_spec X sent
  have users := @dbListNumuser_spec X sent
  have hashes := @dbListHash_spec X sent true
  mvcgen [dbList, docs, count, users, hashes]
  all_goals grind

theorem dbRm_spec {author : Bytes} (cmd : Bytes) (named : X.ndebug = true ∨ author ≠ []) :
    ⦃fun w => ⌜At X sent w⌝⦄ dbRm X author cmd
    ⦃post⟨fun _ w => ⌜At X sent w⌝, fun _ _ => ⌜False⌝⟩⦄ := by
  have removes := @dbRmDocs_spec X sent author
  mvcgen [dbRm, removes]
  all_goals grind

theorem dbUpdateHashes_spec : ⦃fun w => ⌜At X sent w⌝⦄ dbUpdateHashes X
    ⦃post⟨fun _ w => ⌜At X sent w⌝, fun _ _ => ⌜False⌝⟩⦄ := by
  have hashes := @dbListHash_spec X sent false
  mvcgen [dbUpdateHashes, hashes]
  all_goals grind [At, Sized, List.mem_dedup]

/-! ## A file of a client -/

theorem indexContent_spec {author content : Bytes} (named : X.ndebug = true ∨ author ≠ [])
    (readable : Readable X content) : ⦃fun w => ⌜At X sent w⌝⦄ indexContent X author content
    ⦃post⟨fun _ w => ⌜At X sent w⌝, fun e w => ⌜(e = .xapian ∨ False) ∧ At X sent w⌝⟩⦄ := by
  obtain ⟨docs, read⟩ := readable
  have loop := fun docs => @indexDocs_spec X sent author docs
  have commits := @commit_spec X sent
  mvcgen [indexContent, loop, commits]
  all_goals grind

theorem indexContent_unreadable {author content : Bytes} (unreadable : ¬ Readable X content) :
    ⦃fun w => ⌜At X sent w⌝⦄ indexContent X author content
    ⦃post⟨fun _ _ => ⌜False⌝, fun e w => ⌜e ≠ .xapian ∧ At X sent w⌝⟩⦄ := by
  mvcgen [indexContent]
  all_goals grind [Readable]

/-- With its database open, `index_db` returns exactly if the file is readable. -/
theorem writable_indexInto_spec {author : Bytes} (content : Bytes)
    (named : X.ndebug = true ∨ author ≠ []) (outcomes : List Outcome) :
    ⦃fun w => ⌜At X sent w ∧ w.outcomes = outcomes⌝⦄ writable (indexInto X author content)
    ⦃post⟨fun _ w => ⌜At X sent w ∧ Opens outcomes ∧ Readable X content⌝,
      fun _ w => ⌜At X sent w ∧ ¬ (Opens outcomes ∧ Readable X content)⌝⟩⦄ := by
  have closes := @close_spec X sent
  by_cases readable : Readable X content
  · have block := attempt_spec sent (indexContent_spec sent named readable)
    mvcgen [writable, indexInto, block, closes]
    all_goals grind [At, opens_iff, restore_save]
  · have block := @indexContent_unreadable X sent author content readable
    mvcgen [writable, indexInto, attempt, block, closes]
    all_goals grind [At, opens_iff, restore_save]

theorem dbAdd_spec {author : Bytes} (q : Bytes) (files : Files)
    (named : X.ndebug = true ∨ author ≠ []) (outcomes : List Outcome) :
    ⦃fun w => ⌜At X sent w ∧ w.outcomes = outcomes⌝⦄ dbAdd X author q files
    ⦃post⟨fun _ w => ⌜At X sent w ∧ ∀ content, (Request.add q).content files = some content →
        Opens outcomes ∧ Readable X content⌝,
      fun _ w => ⌜At X sent w ∧ ¬ ∀ content, (Request.add q).content files = some content →
        Opens outcomes ∧ Readable X content⌝⟩⦄ := by
  have indexes := fun content => @writable_indexInto_spec X sent author content named outcomes
  mvcgen [dbAdd, indexDb, indexes]
  all_goals grind [Request.content, addedFile]

/-! ## Requests -/

/-- Whether a request gets an answer, once its user is cut off. -/
theorem serviceable_iff {files : Files} {outcomes : List Outcome} {msg : Bytes}
    {parts : Bytes × Bytes} (extracted : extractAuth msg = .ok parts) :
    Serviceable X files outcomes msg ↔
      (∀ q, Request.read parts.1 = .add q ∨ Request.read parts.1 = .rm q →
        X.ndebug = true ∨ parts.2 ≠ []) ∧
      ∀ content, (Request.read parts.1).content files = some content →
        Opens outcomes ∧ Readable X content := by
  obtain ⟨cmd, user⟩ := parts
  obtain ⟨later, rfl, rfl⟩ := extractAuth_ok extracted
  exact ⟨fun serviceable => ⟨serviceable.named, serviceable.file⟩,
    fun ⟨named, file⟩ => ⟨later, named, file⟩⟩

theorem not_serviceable {files : Files} {outcomes : List Outcome} {msg : Bytes} {f : Fault}
    (failed : extractAuth msg = .error f) : ¬ Serviceable X files outcomes msg := by
  intro serviceable
  rw [extractAuth_eq, if_neg serviceable.auth] at failed
  cases failed

theorem at_reply {w : World} (before : At X [] w) (text : Bytes) (notes : List DbRep) :
    At X [text] { w with replies := w.replies ++ [text], notes } := by
  obtain ⟨disk, view, sized, none_⟩ := before
  exact ⟨disk, view, sized, by simp [none_]⟩

theorem dbClientOp_spec (myPeers : List Bytes) (files : Files) (msg : Bytes)
    (outcomes : List Outcome) :
    ⦃fun w => ⌜At X [] w ∧ w.outcomes = outcomes⌝⦄ dbClientOp X myPeers files msg
    ⦃post⟨fun _ w => ⌜(∃ text, At X [text] w) ∧ Serviceable X files outcomes msg⌝,
      fun _ w => ⌜At X [] w ∧ ¬ Serviceable X files outcomes msg⌝⟩⦄ := by
  have query := @dbQuery_spec X []
  have adds := fun author q => @dbAdd_spec X [] author q files
  have removes := fun author => @dbRm_spec X [] author
  have lists := @dbList_spec X []
  have updates := @dbUpdateHashes_spec X []
  mvcgen [dbClientOp, query, adds, removes, lists, updates, reply, note]
  all_goals grind [At, serviceable_iff, not_serviceable, at_reply, Request.content]

theorem dbPeerOp_spec (req : DbReq) : ⦃fun w => ⌜At X sent w⌝⦄ dbPeerOp X req
    ⦃post⟨fun _ w => ⌜At X sent w⌝, fun _ _ => ⌜True⌝⟩⦄ := by
  have gets := @dbGetDocs_spec X sent
  have puts := @dbPutDocs_spec X sent
  have updates := @dbUpdateHashes_spec X sent
  cases req with
  | get addr hashes =>
      mvcgen [dbPeerOp, gets, note]
      all_goals grind [At]
  | ins docs =>
      mvcgen [dbPeerOp, puts, updates, note]
      all_goals grind [At]

end Rpc

/-! ## Every reachable store -/

/-- What a triple says about a run. -/
theorem run_of_triple {α : Type} {op : Op α} {P : World → Prop} {Q : α → World → Prop}
    {E : Thrown → World → Prop}
    (triple : ⦃fun w => ⌜P w⌝⦄ op ⦃post⟨fun a w => ⌜Q a w⌝, fun e w => ⌜E e w⌝⟩⦄)
    {w : World} (before : P w) :
    match op.run w with
    | .ok a w' => Q a w'
    | .error e w' => E e w' := by
  have runs := triple w before
  simp only [WP.wp, PredTrans.apply] at runs
  cases result : op.run w with
  | ok a w' => rw [result] at runs; exact runs
  | error e w' => rw [result] at runs; exact runs

variable (X) in
/-- A store whose entries are texts of documents and whose hashes are digests; `my_hashes` need
not be up to date. -/
structure Stored (s : Store) : Prop where
  written : Written X s.db
  sized : Sized s.myHashes

theorem Stored.at {s : Store} (stored : Stored X s) (outcomes : List Outcome) :
    At X [] (.of s outcomes) := ⟨stored.written, .nil, stored.sized, rfl⟩

theorem Stored.rpcStep {s s' : Store} {op : RpcOp} (stored : Stored X s)
    (stepped : rpcStep X s op = some s') : Stored X s' := by
  obtain ⟨op, outcomes⟩ := op
  have after : ∀ w u, (rpcHandler X op).run (.of s outcomes) = .ok u w →
      ∃ sent, At X sent w := by
    intro w u done
    cases op with
    | client myPeers files msg =>
        have runs := run_of_triple (Rpc.dbClientOp_spec myPeers files msg outcomes)
          ⟨stored.at outcomes, rfl⟩
        rw [show (Rpc.dbClientOp X myPeers files msg).run _ = _ from done] at runs
        exact ⟨_, runs.1.choose_spec⟩
    | peer req =>
        have runs := run_of_triple (Rpc.dbPeerOp_spec [] req) (stored.at outcomes)
        rw [show (Rpc.dbPeerOp X req).run _ = _ from done] at runs
        exact ⟨_, runs⟩
  unfold Piac.rpcStep at stepped
  split at stepped
  · rename_i u w done
    cases stepped
    obtain ⟨sent, written, -, sized, -⟩ := after w u done
    exact ⟨written, sized⟩
  · cases stepped

variable (X) in
/-- The handler returns, and one reply has gone out. -/
def AnsweredOnce (myPeers : List Bytes) (files : Files) (s : Store) (outcomes : List Outcome)
    (msg : Bytes) : Prop :=
  ∃ w, (Rpc.dbClientOp X myPeers files msg).run (.of s outcomes) = .ok () w ∧
    ∃ text, w.replies = [text]

/-- **A request is answered exactly once if it is serviceable, and not at all otherwise**: in
every state that the db thread reaches, however its Xapian calls end, and for every request,
every file and every way in which the Xapian calls of the request end. -/
theorem rpc_answers_once {s₀ s : Store} {ops : List RpcOp} (stored : Stored X s₀)
    (run : Run (rpcStep X) (fun _ _ => True) s₀ ops s) (myPeers : List Bytes) (files : Files)
    (outcomes : List Outcome) (msg : Bytes) :
    AnsweredOnce X myPeers files s outcomes msg ↔ Serviceable X files outcomes msg := by
  have reached : Stored X s :=
    run.invariant stored fun _ _ _ stored _ stepped => stored.rpcStep stepped
  have runs := run_of_triple (Rpc.dbClientOp_spec myPeers files msg outcomes)
    ⟨reached.at outcomes, rfl⟩
  unfold AnsweredOnce
  cases result : (Rpc.dbClientOp X myPeers files msg).run (.of s outcomes) with
  | ok u w =>
      simp only [result] at runs
      obtain ⟨⟨text, -, -, -, replies⟩, serviceable⟩ := runs
      exact ⟨fun _ => serviceable, fun _ => ⟨w, rfl, text, replies⟩⟩
  | error e w =>
      simp only [result] at runs
      constructor
      · rintro ⟨_, impossible, -⟩
        cases impossible
      · exact fun serviceable => absurd serviceable runs.2

/-- A listing is answered although reading the database fails. -/
theorem rpc_answers_once_list : AnsweredOnce (reference true) [] (fun _ => none) ⟨[], []⟩
    [.raises] (bytes "db list AUTH:" ++ Reference.alice) :=
  (rpc_answers_once ⟨.nil, fun _ member => absurd member List.not_mem_nil⟩ .nil [] (fun _ => none) [.raises] _).mpr
    { auth := by decide
      named := fun _ _ => .inl rfl
      file := fun content read => by
        have none_ : (Request.read (commandOf (bytes "db list AUTH:" ++ Reference.alice))).content
            (fun _ => none) = none := by decide
        rw [none_] at read
        cases read }

open Reference in
/-- Three requests that end the daemon without a reply, on an empty database: one that starts
with `AUTH:`; a `db add` when the database cannot be opened; and a `db add` of a file that is
JSON but no ad. -/
theorem unanswered : ¬ AnsweredOnce (reference true) [] (fun _ => none) ⟨[], []⟩ []
      (bytes "AUTH:" ++ alice) ∧
    ¬ AnsweredOnce (reference true) [] (fun _ => some (entry "1" "")) ⟨[], []⟩ [.raises]
      (bytes "db add json ad.json AUTH:" ++ alice) ∧
    ¬ AnsweredOnce (reference true) [] (fun _ => some (bytes "\x7b\x7d")) ⟨[], []⟩ []
      (bytes "db add json ad.json AUTH:" ++ alice) := by
  refine ⟨?_, ?_, ?_⟩
  all_goals rintro ⟨w, done, -⟩
  · cases done
  · cases done
  · cases done

end Piac
