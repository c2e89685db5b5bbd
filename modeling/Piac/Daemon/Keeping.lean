/-
# Daemon.Keeping — what a handler keeps of the database

The programs of `Daemon.Rpc` once more, for a property `P` of databases. `Out P` says of a
world that its disk meets `P`, and `In P` that the open `WritableDatabase` does too. There is
one triple for each function of `db.cpp`, for every `P` that the changes it may make keep: a
function that only reads keeps every `P`, `db_add` one that adding the submitted documents
keeps (`KeepsAdd`), and `db_rm` one that the deletions the author is allowed keep
(`KeepsRm`). Whatever the outcomes of the Xapian calls, and whether or not the function
returns, the disk meets `P` in the end.

`my_hashes` is as it was (`Out`), or a listing of the disk that may have been cut short
(`Announces`).
-/
import Mathlib
import Piac.Daemon.Answering
import Piac.Store.Withdraw

namespace Piac

set_option autoImplicit false
set_option mvcgen.warning false

open Piac.Theory.CppString Piac.Theory.TermStore Piac.Theory.Transition
open Std.Do

variable {X : Platform}

/-- The database on disk meets `P`; `my_hashes` is as it was. -/
def Out (P : Database → Prop) (m : List Bytes) (w : World) : Prop := P w.disk ∧ w.myHashes = m

/-- And the open database meets `P`. -/
def In (P : Database → Prop) (m : List Bytes) (w : World) : Prop :=
  P w.disk ∧ w.myHashes = m ∧ P w.view

namespace Rpc

variable {P : Database → Prop} {m : List Bytes}

/-! ## Calls, blocks and scopes -/

theorem change_keeps (f : Database → Database) :
    ⦃fun w => ⌜In P m w ∧ P (f w.view)⌝⦄ change f
    ⦃post⟨fun _ w => ⌜In P m w⌝, fun e w => ⌜e = .xapian ∧ In P m w⌝⟩⦄ := by
  mvcgen [change]
  all_goals simp_all +zetaDelta [In]

theorem commit_keeps : ⦃fun w => ⌜In P m w⌝⦄ commit
    ⦃post⟨fun _ w => ⌜In P m w⌝, fun e w => ⌜e = .xapian ∧ In P m w⌝⟩⦄ := by
  mvcgen [commit]
  all_goals simp_all +zetaDelta [In]

theorem close_keeps : ⦃fun w => ⌜In P m w⌝⦄ close
    ⦃post⟨fun _ w => ⌜In P m w⌝, fun _ _ => ⌜False⌝⟩⦄ := by
  have commits := commit_keeps (P := P) (m := m)
  mvcgen [close, commits]
  all_goals simp_all [restore_save]

/-- A scope that is left has its changes on disk, or some of them. -/
theorem writable_keeps {α : Type} {block : Op α} {Q : α → Prop} {Other : Thrown → Prop}
    (raises : ⦃fun w => ⌜In P m w⌝⦄ block
      ⦃post⟨fun a w => ⌜In P m w ∧ Q a⌝, fun e w => ⌜(e = .xapian ∨ Other e) ∧ In P m w⌝⟩⦄) :
    ⦃fun w => ⌜Out P m w⌝⦄ writable block
    ⦃post⟨fun a w => ⌜Out P m w ∧ Q a⌝, fun e w => ⌜(e = .xapian ∨ Other e) ∧ Out P m w⌝⟩⦄ := by
  have closes := close_keeps (P := P) (m := m)
  mvcgen [writable, raises, closes]
  all_goals grind [In, Out, restore_save]

/-! ## Loops -/

variable (X) in
/-- `P` is kept when this document is added. -/
def KeepsAdd (P : Database → Prop) (author : Bytes) (ndoc : Document X.Num) : Prop :=
  X.ndebug = true ∨ author ≠ [] → ∀ db, P db →
    P (replace (hashTerm (X.sha256 (entryOf X author ndoc))) (xapianDoc X author ndoc) db)

theorem addDocument_keeps {author : Bytes} (ndoc : Document X.Num) (keeps : KeepsAdd X P author ndoc) :
    ⦃fun w => ⌜In P m w⌝⦄ addDocument X author ndoc
    ⦃post⟨fun _ w => ⌜In P m w⌝, fun _ w => ⌜In P m w⌝⟩⦄ := by
  have changes := @change_keeps P m
  mvcgen [addDocument, changes]
  all_goals grind [In, KeepsAdd]

theorem indexDocs_keeps {author : Bytes} (docs : List (Document X.Num))
    (keeps : ∀ d ∈ docs, KeepsAdd X P author { d with author := author }) :
    ⦃fun w => ⌜In P m w⌝⦄ indexDocs X author docs
    ⦃post⟨fun _ w => ⌜In P m w⌝, fun _ w => ⌜In P m w⌝⟩⦄ := by
  induction docs with
  | nil => mvcgen [indexDocs]
  | cons d rest ih =>
      have adds := @addDocument_keeps X P m author _ (keeps d List.mem_cons_self)
      have later := ih fun d' inRest => keeps d' (List.mem_cons_of_mem _ inRest)
      mvcgen [indexDocs, adds, later]

theorem putDocs_keeps (docs : List Bytes)
    (keeps : ∀ d ∈ docs, ∀ ndoc, Document.deserialize X d = .ok (some ndoc) →
      ndoc.author ≠ [] → KeepsAdd X P ndoc.author ndoc) :
    ⦃fun w => ⌜In P m w⌝⦄ putDocs X docs
    ⦃post⟨fun _ w => ⌜In P m w⌝, fun _ w => ⌜In P m w⌝⟩⦄ := by
  induction docs with
  | nil => mvcgen [putDocs]
  | cons d rest ih =>
      have first := keeps d List.mem_cons_self
      have later := ih fun d' inRest => keeps d' (List.mem_cons_of_mem _ inRest)
      have adds := fun author => @addDocument_keeps X P m author
      mvcgen [putDocs, adds, later]
      all_goals grind [In]

variable (X) in
/-- `P` is kept when a document is deleted that was asked for and has this author. -/
def KeepsRm (P : Database → Prop) (author : Bytes) (hashesToDelete : List Bytes) : Prop :=
  ∀ db h doc ndoc, P db → (postings (hashTerm h) db).head? = some doc → hex h ∈ hashesToDelete →
    Document.deserialize X doc.data = .ok ndoc → author = (ndoc.map Document.author).getD [] →
    P (delete (hashTerm h) db)

theorem rmDocs_keeps {author : Bytes} {hashesToDelete : List Bytes} (myHashes : List Bytes)
    (keeps : KeepsRm X P author hashesToDelete) :
    ⦃fun w => ⌜In P m w⌝⦄ rmDocs X author hashesToDelete myHashes
    ⦃post⟨fun _ w => ⌜In P m w⌝, fun _ w => ⌜In P m w⌝⟩⦄ := by
  induction myHashes with
  | nil => mvcgen [rmDocs]
  | cons h rest ih =>
      have changes := @change_keeps P m
      mvcgen [rmDocs, changes, ih]
      all_goals grind [In, KeepsRm]

theorem getDocs_keeps (hashes : List Bytes) : ⦃fun w => ⌜Out P m w⌝⦄ getDocs X hashes
    ⦃post⟨fun _ w => ⌜Out P m w⌝, fun _ w => ⌜Out P m w⌝⟩⦄ := by
  induction hashes with
  | nil => mvcgen [getDocs]
  | cons h rest ih =>
      mvcgen [getDocs, ih]
      all_goals grind [Out]

/-- A listing, whatever the items, and those of them that it got to. -/
theorem eachDoc_keeps {item : Bytes → Except Fault Bytes} {Q : Bytes → Prop} {db : Database}
    (reads : ∀ doc ∈ db, ∀ b, item doc.data = .ok b → Q b) :
    ⦃fun w => ⌜Out P m w ∧ ∀ b ∈ w.items, Q b⌝⦄ eachDoc item db
    ⦃post⟨fun _ w => ⌜Out P m w ∧ ∀ b ∈ w.items, Q b⌝,
      fun _ w => ⌜Out P m w ∧ ∀ b ∈ w.items, Q b⌝⟩⦄ := by
  induction db with
  | nil => mvcgen [eachDoc]
  | cons doc rest ih =>
      have first := reads doc List.mem_cons_self
      have later := ih fun doc' inRest => reads doc' (List.mem_cons_of_mem _ inRest)
      mvcgen [eachDoc, later]
      all_goals grind [Out]

/-! ## Functions -/

theorem getDoccount_keeps : ⦃fun w => ⌜Out P m w⌝⦄ getDoccount
    ⦃post⟨fun _ w => ⌜Out P m w⌝, fun _ w => ⌜Out P m w⌝⟩⦄ := by
  mvcgen [getDoccount, attempt]
  all_goals grind [Out, restore_save]

theorem dbQuery_keeps (cmd : Bytes) : ⦃fun w => ⌜Out P m w⌝⦄ dbQuery X cmd
    ⦃post⟨fun _ w => ⌜Out P m w⌝, fun _ w => ⌜Out P m w⌝⟩⦄ := by
  mvcgen [dbQuery, attempt]
  all_goals grind [Out, restore_save]

theorem dbGetDocs_keeps (hashes : List Bytes) : ⦃fun w => ⌜Out P m w⌝⦄ dbGetDocs X hashes
    ⦃post⟨fun _ w => ⌜Out P m w⌝, fun _ w => ⌜Out P m w⌝⟩⦄ := by
  have loop := @getDocs_keeps X P m hashes
  mvcgen [dbGetDocs, attempt, loop]
  all_goals grind [Out, restore_save]

theorem dbPutDocs_keeps (docs : List Bytes)
    (keeps : ∀ d ∈ docs, ∀ ndoc, Document.deserialize X d = .ok (some ndoc) →
      ndoc.author ≠ [] → KeepsAdd X P ndoc.author ndoc) :
    ⦃fun w => ⌜Out P m w⌝⦄ dbPutDocs X docs
    ⦃post⟨fun _ w => ⌜Out P m w⌝, fun _ w => ⌜Out P m w⌝⟩⦄ := by
  have loop := @putDocs_keeps X P m docs keeps
  have commits := @commit_keeps P m
  have block : ⦃fun w => ⌜In P m w⌝⦄ putInto X docs
      ⦃post⟨fun a w => ⌜In P m w ∧ True⌝, fun e w => ⌜(e = .xapian ∨ True) ∧ In P m w⌝⟩⦄ := by
    mvcgen [putInto, loop, commits]
    all_goals grind [In]
  have whole := writable_keeps block
  mvcgen [dbPutDocs, attempt, whole]
  all_goals grind [restore_save]

theorem dbRmDocs_keeps {author : Bytes} {hashesToDelete : List Bytes}
    (keeps : KeepsRm X P author hashesToDelete) :
    ⦃fun w => ⌜Out P m w⌝⦄ dbRmDocs X author hashesToDelete
    ⦃post⟨fun _ w => ⌜Out P m w⌝, fun _ w => ⌜Out P m w⌝⟩⦄ := by
  have loop := fun myHashes => @rmDocs_keeps X P m author hashesToDelete myHashes keeps
  have block : ⦃fun w => ⌜In P m w⌝⦄ rmFrom X author hashesToDelete
      ⦃post⟨fun a w => ⌜In P m w ∧ True⌝, fun e w => ⌜(e = .xapian ∨ True) ∧ In P m w⌝⟩⦄ := by
    mvcgen [rmFrom, loop]
    all_goals grind [In]
  have whole := writable_keeps block
  mvcgen [dbRmDocs, attempt, whole]
  all_goals grind [Out, restore_save]

theorem itemsOf_keeps {item : Bytes → Except Fault Bytes} {Q : Bytes → Prop}
    (reads : ∀ db, P db → ∀ doc ∈ db, ∀ b, item doc.data = .ok b → Q b) :
    ⦃fun w => ⌜Out P m w⌝⦄ itemsOf item
    ⦃post⟨fun items w => ⌜Out P m w ∧ ∀ b ∈ items, Q b⌝, fun _ w => ⌜Out P m w⌝⟩⦄ := by
  have loop := fun db => @eachDoc_keeps P m item Q db
  mvcgen [itemsOf, attempt, loop]
  all_goals grind [Out, restore_save]

theorem dbListDoc_keeps : ⦃fun w => ⌜Out P m w⌝⦄ dbListDoc X
    ⦃post⟨fun _ w => ⌜Out P m w⌝, fun _ w => ⌜Out P m w⌝⟩⦄ := by
  have items := @itemsOf_keeps P m (docItem X) (fun _ => True) fun _ _ _ _ _ _ => trivial
  mvcgen [dbListDoc, items]
  all_goals grind

theorem dbListHash_keeps (inhex : Bool) : ⦃fun w => ⌜Out P m w⌝⦄ dbListHash X inhex
    ⦃post⟨fun _ w => ⌜Out P m w⌝, fun _ w => ⌜Out P m w⌝⟩⦄ := by
  have items := @itemsOf_keeps P m (hashItem X inhex) (fun _ => True) fun _ _ _ _ _ _ => trivial
  mvcgen [dbListHash, items]
  all_goals grind

theorem dbListNumuser_keeps : ⦃fun w => ⌜Out P m w⌝⦄ dbListNumuser X
    ⦃post⟨fun _ w => ⌜Out P m w⌝, fun _ w => ⌜Out P m w⌝⟩⦄ := by
  have loop := fun db => @eachDoc_keeps P m (userItem X) (fun _ => True) db
  mvcgen [dbListNumuser, attempt, loop]
  all_goals grind [Out, restore_save]

theorem dbList_keeps (cmd : Bytes) : ⦃fun w => ⌜Out P m w⌝⦄ dbList X cmd
    ⦃post⟨fun _ w => ⌜Out P m w⌝, fun _ w => ⌜Out P m w⌝⟩⦄ := by
  have docs := @dbListDoc_keeps X P m
  have count := @getDoccount_keeps P m
  have users := @dbListNumuser_keeps X P m
  have hashes := @dbListHash_keeps X P m true
  mvcgen [dbList, docs, count, users, hashes]

/-! ## `my_hashes` -/

/-- What is announced is stored. -/
structure Announces (X : Platform) (db : Database) (myHashes : List Bytes) : Prop where
  stored : ∀ h ∈ myHashes, h ∈ hashes X db
  nodup : myHashes.Nodup

/-- However far a listing gets, it lists what is there. -/
theorem dbListHash_stored (D : Database) :
    ⦃fun w => ⌜Out (fun db => P db ∧ db = D) m w⌝⦄ dbListHash X false
    ⦃post⟨fun items w => ⌜Out (fun db => P db ∧ db = D) m w ∧ ∀ h ∈ items, h ∈ hashes X D⌝,
      fun _ w => ⌜Out (fun db => P db ∧ db = D) m w⌝⟩⦄ := by
  have items := @itemsOf_keeps (fun db => P db ∧ db = D) m (hashItem X false) (· ∈ hashes X D) ?_
  · mvcgen [dbListHash, items]
  · rintro db ⟨-, rfl⟩ doc member b same
    cases same
    exact mem_hashes.mpr ⟨doc, member, rfl⟩

theorem dbUpdateHashes_keeps : ⦃fun w => ⌜Out P m w⌝⦄ dbUpdateHashes X
    ⦃post⟨fun _ w => ⌜P w.disk ∧ Announces X w.disk w.myHashes⌝, fun _ w => ⌜P w.disk⌝⟩⦄ := by
  have fixed : ∀ D, ⦃fun w => ⌜Out (fun db => P db ∧ db = D) m w⌝⦄ dbUpdateHashes X
      ⦃post⟨fun _ w => ⌜P w.disk ∧ Announces X w.disk w.myHashes⌝, fun _ w => ⌜P w.disk⌝⟩⦄ := by
    intro D
    have items := @dbListHash_stored X P m D
    mvcgen [dbUpdateHashes, items]
    · rename_i listed _
      obtain ⟨⟨⟨meets, rfl⟩, -⟩, stored⟩ := listed
      exact ⟨meets, fun h member => stored h (List.mem_dedup.mp member), List.nodup_dedup _⟩
    · grind [Out]
  intro w before
  exact fixed w.disk w ⟨⟨before.1, rfl⟩, before.2⟩

/-! ## Requests -/

theorem dbAdd_keeps {author : Bytes} (q : Bytes) (files : Files)
    (keeps : ∀ d ∈ (Request.add q).submits X files, KeepsAdd X P author { d with author := author }) :
    ⦃fun w => ⌜Out P m w⌝⦄ dbAdd X author q files
    ⦃post⟨fun _ w => ⌜Out P m w⌝, fun _ w => ⌜Out P m w⌝⟩⦄ := by
  have loop := @indexDocs_keeps X P m author
  have commits := @commit_keeps P m
  have block : ∀ content, (Request.add q).content files = some content →
      ⦃fun w => ⌜In P m w⌝⦄ indexInto X author content
      ⦃post⟨fun a w => ⌜In P m w ∧ True⌝, fun e w => ⌜(e = .xapian ∨ True) ∧ In P m w⌝⟩⦄ := by
    intro content named
    mvcgen [indexInto, attempt, indexContent, loop, commits]
    all_goals grind [In, restore_save, Request.submits]
  have whole := fun content named => writable_keeps (block content named)
  mvcgen [dbAdd, indexDb, whole]
  all_goals grind [Request.content, addedFile, Out]

theorem dbRm_keeps {author : Bytes} (q : Bytes)
    (keeps : KeepsRm X P author (tokenize (trim q))) :
    ⦃fun w => ⌜Out P m w⌝⦄ dbRm X author q
    ⦃post⟨fun _ w => ⌜Out P m w⌝, fun _ w => ⌜Out P m w⌝⟩⦄ := by
  have removes := @dbRmDocs_keeps X P m author (tokenize (trim q)) keeps
  mvcgen [dbRm, removes]
  all_goals grind

/-- A request keeps what the ads it submits and the removal it asks for keep. Unless it leaves
`my_hashes` alone, which a removal does not, it ends with what is stored. -/
theorem dbClientOp_keeps (myPeers : List Bytes) (files : Files) (msg : Bytes)
    (adds : ∀ d ∈ (Request.read (commandOf msg)).submits X files,
      KeepsAdd X P (userOf msg) { d with author := userOf msg })
    (removes : ∀ q, Request.read (commandOf msg) = .rm q →
      KeepsRm X P (userOf msg) (tokenize (trim q))) :
    ⦃fun w => ⌜Out P m w⌝⦄ dbClientOp X myPeers files msg
    ⦃post⟨fun _ w => ⌜P w.disk ∧ (Announces X w.disk w.myHashes ∨
        w.myHashes = m ∧ ∀ q, Request.read (commandOf msg) ≠ .rm q)⌝,
      fun _ w => ⌜P w.disk⌝⟩⦄ := by
  have query := @dbQuery_keeps X P m
  have add := fun author q => @dbAdd_keeps X P m author q files
  have rm := fun author => @dbRm_keeps X P m author
  have list := @dbList_keeps X P m
  have updates := @dbUpdateHashes_keeps X P m
  have parts : ∀ r, extractAuth msg = .ok r → r.1 = commandOf msg ∧ r.2 = userOf msg :=
    fun r extracted => (extractAuth_ok extracted).2
  mvcgen [dbClientOp, query, add, rm, list, updates, reply, note]
  all_goals grind [Out]

theorem dbPeerOp_keeps (req : DbReq)
    (adds : ∀ docs, req = .ins docs → ∀ d ∈ docs, ∀ ndoc,
      Document.deserialize X d = .ok (some ndoc) → ndoc.author ≠ [] → KeepsAdd X P ndoc.author ndoc) :
    ⦃fun w => ⌜Out P m w⌝⦄ dbPeerOp X req
    ⦃post⟨fun _ w => ⌜P w.disk ∧ (Announces X w.disk w.myHashes ∨ w.myHashes = m)⌝, fun _ w => ⌜P w.disk⌝⟩⦄ := by
  have gets := @dbGetDocs_keeps X P m
  have puts := @dbPutDocs_keeps X P m
  have updates := @dbUpdateHashes_keeps X P m
  cases req with
  | get addr hashes =>
      mvcgen [dbPeerOp, gets, note]
      all_goals grind [Out]
  | ins docs =>
      mvcgen [dbPeerOp, puts, updates, note]
      all_goals grind [Out, unknownDocs]

/-- What `db_thread` does before its loop. -/
def dbThreadStart (X : Platform) : Op Unit := do
  let _ ← getDoccount
  dbUpdateHashes X

theorem dbThreadStart_spec (sent : List Bytes) : ⦃fun w => ⌜At X sent w⌝⦄ dbThreadStart X
    ⦃post⟨fun _ w => ⌜At X sent w⌝, fun _ _ => ⌜False⌝⟩⦄ := by
  have count := @getDoccount_spec X sent
  have updates := @dbUpdateHashes_spec X sent
  mvcgen [dbThreadStart, count, updates]

theorem dbThreadStart_keeps : ⦃fun w => ⌜Out P m w⌝⦄ dbThreadStart X
    ⦃post⟨fun _ w => ⌜P w.disk ∧ Announces X w.disk w.myHashes⌝, fun _ w => ⌜P w.disk⌝⟩⦄ := by
  have count := @getDoccount_keeps P m
  have updates := @dbUpdateHashes_keeps X P m
  mvcgen [dbThreadStart, count, updates]
  all_goals grind [Out]

end Rpc

end Piac
