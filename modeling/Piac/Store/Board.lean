/-
# Store.Board — what clients and peers see is a board

`db_client_op` and `db_peer_op` work on documents, terms and the texts of requests. To those
who send the requests the database is a board (`Theory.Board`): the items are the entries,
the key of an entry is its digest in hex, its owner the author in it. `asked` is what a request
asks of the board, and `said` the text in which an answer comes back.

`talk_refines`: every conversation with the database thread, request by request and reply by
reply, is a conversation with the board.
-/
import Piac.Store.Grow
import Piac.Store.Survival
import Piac.Store.Tally
import Piac.Theory.Board

namespace Piac

set_option autoImplicit false

open Piac.Theory.CppString Piac.Theory.TermStore Piac.Theory.Transition Piac.Theory.Board

variable (X : Platform)

/-! ## Requests and answers -/

/-- The key under which clients and peers ask for an entry. -/
def keyOf (entry : Bytes) : Bytes := hex (X.sha256 entry)

/-- What a `db list` asks. -/
def listAsked (cmd : Bytes) : Ask Bytes Bytes Bytes :=
  if cmd = [] then .items
  else if (bytes "numdoc").isPrefixOf cmd then .count
  else if (bytes "numusr").isPrefixOf cmd then .owners
  else if (bytes "hash").isPrefixOf cmd then .keys
  else .other

/-- What a message asks of the board. -/
def DbOp.asked : DbOp → Ask Bytes Bytes Bytes
  | .client myPeers files msg =>
      match Request.read (commandOf msg) with
      | .add q =>
          if (Request.content files (.add q)).isSome then
            .post {e | DbOp.Brings X (.client myPeers files msg) e}
          else .other
      | .rm q =>
          if trim q = [] then .other else .withdraw (userOf msg) {k | k ∈ tokenize (trim q)}
      | .list q => listAsked (trim q)
      | _ => .other
  | .peer (.get _ wanted) => .fetch {k | ∃ h ∈ wanted, hex h = k}
  | .peer (.ins docs) => .post {e | DbOp.Brings X (.peer (.ins docs)) e}

/-- The line of a listing for an entry. -/
def adLine (entry : Bytes) : Bytes :=
  match Document.deserialize X entry with
  | .ok (some d) =>
      hex (X.sha256 entry) ++ bytes ": " ++ Document.serialize X { d with author := hex d.author }
  | _ => []

/-- The text of an answer to a client. -/
def said : Answer Bytes Bytes → Option Bytes
  | .added n => some (addedReply n)
  | .removed n => some (removedReply n)
  | .refused => some refusedReply
  | .empty => some (bytes "no docs")
  | .keys keys => some (listing keys)
  | .items entries => some (listing (entries.map (adLine X)))
  | .count n => some (bytes "Number of documents: " ++ stdToString n)
  | .owners n => some (bytes "Number of users: " ++ stdToString n)
  | .fetched _ => none
  | .other => none

/-! ## Conversations -/

/-- What the database thread sends back: a reply to a client, messages to the p2p thread. -/
inductive Output where
  | reply (text : Bytes)
  | notes (reps : List DbRep)
  deriving DecidableEq

def exchange (s : Store) : DbOp → Option (Store × Output)
  | .client myPeers files msg =>
      (dbClientOp X myPeers files s msg).toOption.map fun (s', reply, _) => (s', .reply reply)
  | .peer req => (dbPeerOp X s req).toOption.map fun (s', reps) => (s', .notes reps)

/-- A message, and what is heard back. -/
def talkStep (s : Store) (talk : DbOp × Output) : Option Store :=
  (exchange X s talk.1).bind fun (s', output) => if output = talk.2 then some s' else none

/-- What is heard back tells this answer. -/
inductive Tells : DbOp × Output → Ask Bytes Bytes Bytes × Answer Bytes Bytes → Prop where
  | client {myPeers : List Bytes} {files : Files} {msg reply : Bytes} {answer : Answer Bytes Bytes}
      (heard : ∀ text, said X answer = some text → reply = text) :
      Tells (.client myPeers files msg, .reply reply)
        (DbOp.asked X (.client myPeers files msg), answer)
  | get {addr : Bytes} {wanted found : List Bytes} :
      Tells (.peer (.get addr wanted), .notes [.put addr found])
        (DbOp.asked X (.peer (.get addr wanted)), .fetched found)
  | ins {docs : List Bytes} {reps : List DbRep} {n : Nat} :
      Tells (.peer (.ins docs), .notes reps) (DbOp.asked X (.peer (.ins docs)), .added n)

variable {X}

/-! ## Sizes -/

theorem entries_eq (db : Database) : entries db = {e | e ∈ db.map Doc.data} := by
  ext e
  simp [entries]

section Well

variable {db : Database} (well : WellStored X db)
include well

theorem WellStored.data_nodup : (db.map Doc.data).Nodup :=
  List.Nodup.of_map X.sha256 (by rw [List.map_map]; exact well.hashes_nodup)

theorem encard_entries : (entries db).encard = db.length := by
  rw [entries_eq, encard_listed well.data_nodup, List.length_map]

theorem encard_wanted {hashesToDelete : List Bytes} :
    {e ∈ entries db | keyOf X e ∈ {k | k ∈ hashesToDelete}}.encard =
      db.countP fun doc => decide (Wanted X hashesToDelete doc) := by
  have listed : {e ∈ entries db | keyOf X e ∈ {k | k ∈ hashesToDelete}} =
      {e | e ∈ (db.filter fun doc => decide (Wanted X hashesToDelete doc)).map Doc.data} := by
    ext e
    constructor
    · rintro ⟨⟨doc, stored, rfl⟩, wanted⟩
      exact List.mem_map_of_mem (List.mem_filter.mpr ⟨stored, decide_eq_true wanted⟩)
    · intro member
      obtain ⟨doc, left, rfl⟩ := List.mem_map.mp member
      obtain ⟨stored, wanted⟩ := List.mem_filter.mp left
      exact ⟨⟨doc, stored, rfl⟩, of_decide_eq_true wanted⟩
  have once : ((db.filter fun doc => decide (Wanted X hashesToDelete doc)).map Doc.data).Nodup :=
    well.data_nodup.sublist (List.filter_sublist.map Doc.data)
  rw [listed, encard_listed once, List.length_map, List.countP_eq_length_filter]

end Well

/-! ## Removals -/

/-- **A walk that comes to somebody else's document is refused**, and takes only what is the
author's and asked for. -/
theorem rmDocs_refused {author : Bytes} {hashesToDelete : List Bytes} (order : List Bytes)
    {db : Database} (well : WellStored X db) (sized : ∀ hash ∈ order, hash.length = 32)
    (foreign : ∃ doc ∈ db, X.sha256 doc.data ∈ order ∧ Wanted X hashesToDelete doc ∧
      author ≠ authorOf X doc.data) (n : Nat) :
    ∃ db', rmDocs X author hashesToDelete db n order = .ok (db', refusedReply) ∧
      (∀ doc ∈ db', doc ∈ db) ∧
      ∀ doc ∈ db, ¬ (authorOf X doc.data = author ∧ Wanted X hashesToDelete doc) → doc ∈ db' := by
  induction order generalizing db n with
  | nil => obtain ⟨_, _, impossible, -⟩ := foreign; cases impossible
  | cons hash rest ih =>
      have sizedRest : ∀ h ∈ rest, h.length = 32 := fun h inRest => sized h (by simp [inRest])
      obtain ⟨other, stored, listed, wanted, apart⟩ := foreign
      by_cases asked : ∃ doc ∈ db, X.sha256 doc.data = hash ∧ Wanted X hashesToDelete doc
      · obtain ⟨doc, inDb, rfl, asks⟩ := asked
        rw [rmDocs_wanted well inDb asks]
        by_cases own : author = authorOf X doc.data
        · rw [if_pos own]
          -- the walk goes on to the other, which this was not
          have differs : X.sha256 other.data ≠ X.sha256 doc.data := fun same =>
            apart (by rw [well.unique stored inDb same]; exact own)
          have kept : ∀ left ∈ db, X.sha256 left.data ≠ X.sha256 doc.data →
              left ∈ delete (hashTerm (X.sha256 doc.data)) db := fun left member ne =>
            mem_delete.mpr ⟨member, fun carries => ne ((well.indexed member _).mp carries)⟩
          obtain ⟨db', removed, fewer, left⟩ := ih (well.deleted _) sizedRest
            ⟨other, kept other stored differs, (List.mem_cons.mp listed).resolve_left differs,
              wanted, apart⟩ (n + 1)
          refine ⟨db', removed, fun e member => (mem_delete.mp (fewer e member)).1,
            fun e member stays => left e (kept e member fun same => stays ?_) stays⟩
          rw [well.unique member inDb same]
          exact ⟨own.symm, asks⟩
        · rw [if_neg own]
          exact ⟨db, rfl, fun _ member => member, fun _ member _ => member⟩
      · have skipped : ∀ doc ∈ db, X.sha256 doc.data = hash → ¬ Wanted X hashesToDelete doc :=
          fun doc member same asks => asked ⟨doc, member, same, asks⟩
        rw [rmDocs_skip well (assert_sized (sized hash (by simp))) skipped]
        have later : X.sha256 other.data ∈ rest :=
          (List.mem_cons.mp listed).resolve_left fun same => skipped other stored same wanted
        exact ih well sizedRest ⟨other, stored, later, wanted, apart⟩ n

theorem dbRmDocs_serves {s : Store} {author reply : Bytes} {hashesToDelete : List Bytes}
    {db : Database} (mirrors : Mirrors X s)
    (removed : dbRmDocs X author s.db hashesToDelete s.myHashes = .ok (db, reply)) :
    ∃ answer, Serves (keyOf X) (authorOf X) (.withdraw author {k | k ∈ hashesToDelete})
      (entries s.db) answer (entries db) ∧ said X answer = some reply := by
  have perm : s.myHashes.Perm (hashes X s.db) :=
    (List.perm_ext_iff_of_nodup mirrors.nodup mirrors.well.hashes_nodup).mpr mirrors.same
  by_cases none_ : s.db = []
  · rw [dbRmDocs, if_pos (getDoccount_eq_zero.mpr none_)] at removed
    cases removed
    have board : entries s.db = ∅ := by
      rw [none_, Set.eq_empty_iff_forall_notMem]
      rintro e ⟨_, impossible, -⟩
      cases impossible
    rw [board]
    exact ⟨.empty, .empty, rfl⟩
  by_cases own : ∀ doc ∈ s.db, Wanted X hashesToDelete doc → author = authorOf X doc.data
  · rw [dbRmDocs_own mirrors.well own perm, if_neg none_] at removed
    cases removed
    have left : entries (s.db.filter fun doc => decide ¬ Wanted X hashesToDelete doc) =
        {e ∈ entries s.db | keyOf X e ∉ {k | k ∈ hashesToDelete}} := by
      ext e
      constructor
      · rintro ⟨doc, member, rfl⟩
        obtain ⟨stored, kept⟩ := List.mem_filter.mp member
        exact ⟨⟨doc, stored, rfl⟩, of_decide_eq_true kept⟩
      · rintro ⟨⟨doc, stored, rfl⟩, kept⟩
        exact ⟨doc, List.mem_filter.mpr ⟨stored, decide_eq_true kept⟩, rfl⟩
    rw [left]
    refine ⟨_, .withdraw ?_ ?_ (encard_wanted mirrors.well), rfl⟩
    · rintro e ⟨doc, stored, rfl⟩ wanted
      exact (own doc stored wanted).symm
    · obtain ⟨doc, stored⟩ := List.exists_mem_of_ne_nil _ none_
      exact ⟨doc.data, doc, stored, rfl⟩
  · push Not at own
    obtain ⟨doc, stored, wanted, apart⟩ := own
    have listed : X.sha256 doc.data ∈ s.myHashes := (mirrors.same _).mpr (mem_hashes.mpr ⟨doc, stored, rfl⟩)
    obtain ⟨db', refused, fewer, left⟩ := rmDocs_refused s.myHashes mirrors.well (sized_of_perm perm)
      ⟨doc, stored, listed, wanted, apart⟩ 0
    rw [dbRmDocs, if_neg (by rwa [getDoccount_eq_zero]), refused] at removed
    cases removed
    refine ⟨_, .refuse ?_ ?_ ?_, rfl⟩
    · exact fun all => apart (all doc.data ⟨doc, stored, rfl⟩ wanted).symm
    · rintro e ⟨e', member, rfl⟩
      exact ⟨e', fewer e' member, rfl⟩
    · rintro e ⟨e', member, rfl⟩ stays
      exact ⟨e', left e' member stays, rfl⟩

/-! ## Listings -/

/-- A message that asks the board for nothing may be answered as it likes. -/
theorem other_serves {contents : Set Bytes} {reply : Bytes} :
    ∃ answer, Serves (keyOf X) (authorOf X) .other contents answer contents ∧
      ∀ text, said X answer = some text → reply = text := by
  refine ⟨.other, .other, fun text same => ?_⟩
  cases same

/-- A listing of documents that can all be read. -/
theorem mapM_read {α : Type} {item : Doc Bytes Bytes → Except Fault α} {f : Doc Bytes Bytes → α}
    {db : Database} (reads : ∀ doc ∈ db, item doc = .ok (f doc)) : db.mapM item = .ok (db.map f) := by
  induction db with
  | nil => rfl
  | cons doc rest ih =>
      rw [List.mapM_cons, reads doc List.mem_cons_self,
        ih fun other member => reads other (List.mem_cons_of_mem _ member)]
      rfl

theorem dbListDoc_eq {db : Database} (well : WellStored X db) :
    dbListDoc X db = .ok ((db.map Doc.data).map (adLine X)) := by
  rw [List.map_map]
  refine mapM_read fun doc stored => ?_
  obtain ⟨d, read, -⟩ := well.read stored
  simp only [read, Function.comp_apply, adLine]
  rfl

theorem dbListNumuser_eq {db : Database} (well : WellStored X db) :
    dbListNumuser X db = .ok (db.map fun doc => authorOf X doc.data).dedup.length := by
  have users : (db.mapM fun doc => do
      let d ← Document.deserialize X doc.data
      return (d.map Document.author).getD []) = .ok (db.map fun doc => authorOf X doc.data) := by
    refine mapM_read fun doc stored => ?_
    obtain ⟨d, read, -⟩ := well.read stored
    simp only [read, authorOf]
    rfl
  rw [dbListNumuser, users]
  rfl

theorem encard_owners (db : Database) : (authorOf X '' entries db).encard =
    (db.map fun doc => authorOf X doc.data).dedup.length := by
  rw [← encard_listed (List.nodup_dedup _)]
  congr 1
  ext user
  simp only [List.mem_dedup]
  constructor
  · rintro ⟨e, ⟨doc, stored, rfl⟩, rfl⟩
    exact List.mem_map.mpr ⟨doc, stored, rfl⟩
  · intro member
    obtain ⟨doc, stored, rfl⟩ := List.mem_map.mp member
    exact ⟨doc.data, ⟨doc, stored, rfl⟩, rfl⟩

theorem dbListHash_inhex (db : Database) : dbListHash X db true = (hashes X db).map hex := by
  simp [dbListHash, hashes]

/-- **A listing answers what it is asked.** -/
theorem dbList_serves {db : Database} {q reply : Bytes} (well : WellStored X db)
    (listed : dbList X db q = .ok reply) :
    ∃ answer, Serves (keyOf X) (authorOf X) (listAsked (trim q)) (entries db) answer (entries db) ∧
      ∀ text, said X answer = some text → reply = text := by
  unfold dbList at listed
  unfold listAsked
  dsimp only at listed
  split at listed
  · rename_i blank
    rw [dbListDoc_eq well] at listed
    cases listed
    rw [if_pos blank]
    refine ⟨.items (db.map Doc.data), .items well.data_nodup fun e => ?_, fun text same => ?_⟩
    · rw [entries_eq]; exact Iff.rfl
    · cases same; rfl
  · rename_i named
    rw [if_neg named]
    split at listed
    · rename_i numdoc
      cases listed
      rw [if_pos numdoc]
      refine ⟨.count (getDoccount db), .count (encard_entries well), fun text same => ?_⟩
      cases same; rfl
    · rename_i other
      rw [if_neg other]
      split at listed
      · rename_i numusr
        rw [dbListNumuser_eq well] at listed
        cases listed
        rw [if_pos numusr]
        refine ⟨.owners _, .owners (encard_owners db), fun text same => ?_⟩
        cases same; rfl
      · rename_i other'
        rw [if_neg other']
        split at listed
        · rename_i hash
          cases listed
          rw [if_pos hash, dbListHash_inhex]
          refine ⟨.keys ((hashes X db).map hex), .keys (well.hashes_nodup.map hex_injective) fun k => ?_,
            fun text same => ?_⟩
          · rw [List.mem_map]
            constructor
            · rintro ⟨h, member, rfl⟩
              obtain ⟨doc, stored, rfl⟩ := mem_hashes.mp member
              exact ⟨doc.data, ⟨doc, stored, rfl⟩, rfl⟩
            · rintro ⟨e, stored, rfl⟩
              exact ⟨_, hash_mem_of_entry stored, rfl⟩
          · cases same; rfl
        · rename_i unknown
          rw [if_neg unknown]
          exact other_serves

/-! ## Additions -/

section Post

variable {s : Store} {all : Set Bytes}

/-- The reply to an add names no less than what is new. -/
theorem added_enough {author : Bytes} {docs : List (Document X.Num)} (mirrors : Mirrors X s)
    (distinct : Distinct X all) (stored : entries s.db ⊆ all)
    (inAll : (GrowOp.add author docs).submitted ⊆ all) :
    ((GrowOp.add author docs).submitted \ entries s.db).encard ≤
      (countedHashes X author s.myHashes docs).length := by
  have apart : Set.InjOn X.sha256 ((GrowOp.add author docs).submitted \ entries s.db) :=
    distinct.mono (Set.sdiff_subset.trans inAll)
  rw [← apart.encard_image]
  refine (Set.encard_le_encard ?_).trans (encard_listed_le _)
  rintro _ ⟨e, ⟨⟨d, member, rfl⟩, unknown⟩, rfl⟩
  refine mem_countedHashes.mpr ⟨d, member, rfl, fun known => unknown ?_⟩
  exact mem_entries_of_hash distinct stored (inAll ⟨d, member, rfl⟩) ((mirrors.same _).mp known)

/-- What peers bring is finitely much. -/
theorem finite_brought (docs : List Bytes) : (GrowOp.ins (X := X) docs).submitted.Finite := by
  have each : ∀ d : Bytes, {e | Reserializes X d e}.Finite := fun d =>
    Set.Subsingleton.finite fun _ one _ other => Reserializes.unique one other
  refine ((List.finite_toSet docs).biUnion fun d _ => each d).subset ?_
  rintro e ⟨d, member, again⟩
  exact Set.mem_biUnion member again

theorem dbAdd_serves {myPeers : List Bytes} {files : Files} {msg q reply : Bytes} {db : Database}
    (mirrors : Mirrors X s) (distinct : Distinct X all) (stored : entries s.db ⊆ all)
    (inAll : {e | DbOp.Brings X (.client myPeers files msg) e} ⊆ all)
    (reads : Request.read (commandOf msg) = .add q) (named : X.assert .author (userOf msg ≠ []) = .ok ())
    (added : dbAdd X (userOf msg) s.db q files s.myHashes = .ok (db, reply)) :
    ∃ answer, Serves (keyOf X) (authorOf X) (DbOp.asked X (.client myPeers files msg))
      (entries s.db) answer (entries db) ∧ ∀ text, said X answer = some text → reply = text := by
  have asked : DbOp.asked X (.client myPeers files msg) =
      if (Request.content files (.add q)).isSome then
        .post {e | DbOp.Brings X (.client myPeers files msg) e} else .other := by
    simp only [DbOp.asked, reads]
  rw [asked]
  simp only [dbAdd, bind_eq_ok] at added
  obtain ⟨⟨⟩, -, added⟩ := added
  split at added
  · rename_i json
    have file : addedFile q = some ((trim q).drop 5) := if_pos json
    simp only [indexDb, bind_eq_ok] at added
    obtain ⟨⟨⟩, -, added⟩ := added
    split at added
    · rename_i missing
      cases added
      rw [if_neg (by simp [Request.content, file, missing])]
      exact other_serves
    · rename_i content opened
      simp only [bind_eq_ok] at added
      obtain ⟨docs, read, ⟨db₁, n⟩, indexed, added⟩ := added
      cases added
      rw [if_pos (by simp [Request.content, file, opened])]
      have submits : (Request.add q).submits X files = docs := by
        simp only [Request.submits, Request.content, file, Option.bind_some, opened,
          Option.map_some, read]
      have brought : {e | DbOp.Brings X (.client myPeers files msg) e} =
          (GrowOp.add (userOf msg) docs).submitted := by
        simp only [DbOp.Brings, reads, submits, GrowOp.submitted]
      rw [brought] at inAll ⊢
      have done : GrowOp.step X s (.add (userOf msg) docs) = some (dbUpdateHashes X { s with db := db₁ }) := by
        refine toOption_map_eq_some.mpr ⟨(dbUpdateHashes X { s with db := db₁ }, [.new]), ?_, rfl⟩
        simp only [clientOp, bind_eq_ok]
        exact ⟨(), named, (db₁, n), indexed, rfl⟩
      have grown := (step_add mirrors distinct stored inAll done).2
      rw [dbUpdateHashes_db] at grown
      show ∃ answer, Serves (keyOf X) (authorOf X) _ (entries s.db) answer (entries db₁) ∧ _
      rw [grown]
      refine ⟨.added n, .post ?_, fun text same => ?_⟩
      · rw [indexDocs_count indexed, Nat.zero_add]
        exact added_enough mirrors distinct stored inAll
      · cases same; rfl
  · rename_i other
    cases added
    have file : addedFile q = none := if_neg other
    rw [if_neg (by simp [Request.content, file])]
    exact other_serves

end Post

/-! ## One message -/

/-- What a message posts is what it brings. -/
theorem posted_brought {op : DbOp} {items : Set Bytes} {e : Bytes}
    (asked : op.asked X = .post items) (posted : e ∈ items) : op.Brings X e := by
  cases op with
  | client myPeers files msg =>
      simp only [DbOp.asked] at asked
      split at asked
      · split at asked
        · cases asked; exact posted
        · cases asked
      · split at asked <;> cases asked
      · unfold listAsked at asked
        split at asked
        · cases asked
        repeat (split at asked; · cases asked)
        cases asked
      · cases asked
  | peer req =>
      cases req with
      | get addr wanted => cases asked
      | ins docs => cases asked; exact posted

/-- The entries a peer sends, as they are sent. -/
def DbOp.sent : DbOp → Set Bytes
  | .peer (.ins docs) => {e | e ∈ docs}
  | _ => ∅

theorem dbClientOp_serves {s s' : Store} {all : Set Bytes} {myPeers : List Bytes} {files : Files}
    {msg reply : Bytes} {notes : List DbRep} (mirrors : Mirrors X s) (distinct : Distinct X all)
    (stored : entries s.db ⊆ all) (inAll : {e | DbOp.Brings X (.client myPeers files msg) e} ⊆ all)
    (done : dbClientOp X myPeers files s msg = .ok (s', reply, notes)) :
    ∃ answer, Serves (keyOf X) (authorOf X) (DbOp.asked X (.client myPeers files msg))
      (entries s.db) answer (entries s'.db) ∧ ∀ text, said X answer = some text → reply = text := by
  rw [dbClientOp_eq] at done
  split at done
  · cases done
  cases reads : Request.read (commandOf msg) with
  | add q =>
      rw [reads] at done
      simp only [dbClientBranch, bind_eq_ok] at done
      obtain ⟨⟨⟩, named, ⟨db, reply'⟩, added, done⟩ := done
      cases done
      exact dbAdd_serves mirrors distinct stored inAll reads named added
  | rm q =>
      rw [reads] at done
      simp only [dbClientBranch, dbRm, bind_eq_ok] at done
      obtain ⟨⟨⟩, -, ⟨db, reply'⟩, ⟨⟨⟩, -, removed⟩, done⟩ := done
      cases done
      simp only [DbOp.asked, reads]
      split at removed
      · rename_i some_
        rw [if_neg some_]
        obtain ⟨answer, serves, tells⟩ := dbRmDocs_serves mirrors removed
        refine ⟨answer, serves, fun text same => ?_⟩
        rw [tells] at same
        exact Option.some.inj same
      · rename_i none_
        cases removed
        rw [if_pos (not_not.mp none_)]
        exact other_serves
  | list q =>
      rw [reads] at done
      simp only [dbClientBranch, bind_eq_ok] at done
      obtain ⟨reply', listed, done⟩ := done
      cases done
      simp only [DbOp.asked, reads]
      exact dbList_serves mirrors.well listed
  | _ =>
      rw [reads] at done
      cases done
      simp only [DbOp.asked, reads]
      exact other_serves

/-- **One message and what is heard back are one visit to the board.** -/
theorem exchange_serves {s s' : Store} {all : Set Bytes} {op : DbOp} {output : Output}
    (reread : ∀ x, X.reread x = x) (mirrors : Mirrors X s) (distinct : Distinct X all)
    (stored : entries s.db ⊆ all) (inAll : {e | op.Brings X e} ⊆ all) (sent : op.sent ⊆ all)
    (done : exchange X s op = some (s', output)) :
    ∃ answer, Serves (keyOf X) (authorOf X) (op.asked X) (entries s.db) answer (entries s'.db) ∧
      Tells X (op, output) (op.asked X, answer) := by
  cases op with
  | client myPeers files msg =>
      obtain ⟨⟨s₁, reply, notes⟩, ran, same⟩ := toOption_map_eq_some.mp done
      cases same
      obtain ⟨answer, serves, tells⟩ := dbClientOp_serves mirrors distinct stored inAll ran
      exact ⟨answer, serves, .client tells⟩
  | peer req =>
      obtain ⟨⟨s₁, reps⟩, ran, same⟩ := toOption_map_eq_some.mp done
      cases same
      cases req with
      | get addr wanted =>
          obtain ⟨rfl, rfl⟩ := dbPeerOp_get mirrors ran
          refine ⟨.fetched _, .fetch fun e => ?_, .get⟩
          rw [List.mem_filterMap]
          constructor
          · rintro ⟨h, asked, found⟩
            obtain ⟨doc, inDb, rfl, digest⟩ := (entryUnder_eq_some mirrors.well).mp found
            exact ⟨⟨doc, inDb, rfl⟩, h, asked, by rw [keyOf, digest]⟩
          · rintro ⟨⟨doc, inDb, rfl⟩, h, asked, same⟩
            exact ⟨h, asked, (entryUnder_eq_some mirrors.well).mpr
              ⟨doc, inDb, rfl, (hex_injective same).symm⟩⟩
      | ins docs =>
          have stepped : GrowOp.step X s (.ins docs) = some s' :=
            toOption_map_eq_some.mpr ⟨_, ran, rfl⟩
          have grown := (step_ins reread mirrors distinct stored inAll sent stepped).2
          rw [grown]
          refine ⟨.added (GrowOp.ins (X := X) docs).submitted.ncard, .post ?_, .ins⟩
          rw [(finite_brought (X := X) docs).cast_ncard_eq]
          exact Set.encard_le_encard Set.sdiff_subset

/-! ## Conversations -/

/-- The entries there are at the start or that get to the daemon. -/
def involved (X : Platform) (db : Database) (ops : List DbOp) : Set Bytes :=
  entries db ∪ {e | ∃ op ∈ ops, op.Brings X e ∨ e ∈ op.sent}

theorem talkStep_eq_some {s s' : Store} {talk : DbOp × Output}
    (stepped : talkStep X s talk = some s') : exchange X s talk.1 = some (s', talk.2) := by
  simp only [talkStep, Option.bind_eq_some_iff, Option.ite_none_right_eq_some] at stepped
  obtain ⟨⟨s₁, output⟩, done, rfl, same⟩ := stepped
  cases same
  exact done

theorem Mirrors.talkStep {s s' : Store} {talk : DbOp × Output} (mirrors : Mirrors X s)
    (stepped : talkStep X s talk = some s') : Mirrors X s' := by
  have done := talkStep_eq_some stepped
  obtain ⟨op, output⟩ := talk
  have ran : Piac.dbStep X s op = some s' := by
    cases op with
    | client myPeers files msg =>
        obtain ⟨⟨s₁, reply, notes⟩, ran, same⟩ := toOption_map_eq_some.mp done
        cases same
        exact toOption_map_eq_some.mpr ⟨_, ran, rfl⟩
    | peer req =>
        obtain ⟨⟨s₁, reps⟩, ran, same⟩ := toOption_map_eq_some.mp done
        cases same
        exact toOption_map_eq_some.mpr ⟨_, ran, rfl⟩
  exact mirrors.dbStep ran

/-- A conversation as visits to the board. -/
theorem talk_visits {s₀ s : Store} {talks : List (DbOp × Output)} {all : Set Bytes}
    (reread : ∀ x, X.reread x = x) (mirrors : Mirrors X s₀) (distinct : Distinct X all)
    (inAll : involved X s₀.db (talks.map Prod.fst) ⊆ all)
    (run : Run (talkStep X) (fun _ _ => True) s₀ talks s) :
    Mirrors X s ∧ entries s.db ⊆ all ∧
      ∃ visits, Visits (keyOf X) (authorOf X) (entries s₀.db) visits (entries s.db) ∧
        List.Forall₂ (Tells X) talks visits := by
  induction run with
  | nil => exact ⟨mirrors, Set.subset_union_left.trans inAll, [], .nil, .nil⟩
  | @snoc talks t u talk before _ stepped ih =>
      have earlier : involved X s₀.db (talks.map Prod.fst) ⊆
          involved X s₀.db ((talks ++ [talk]).map Prod.fst) := by
        refine Set.union_subset_union_right _ ?_
        rintro e ⟨op, member, from_⟩
        exact ⟨op, by rw [List.map_append]; exact List.mem_append_left _ member, from_⟩
      have last : talk.1 ∈ (talks ++ [talk]).map Prod.fst :=
        List.mem_map_of_mem (List.mem_append_right _ (List.mem_singleton_self _))
      have brought : {e | talk.1.Brings X e} ⊆ all := fun e brings =>
        inAll (.inr ⟨talk.1, last, .inl brings⟩)
      obtain ⟨mirrors', stored, visits, made, told⟩ := ih (earlier.trans inAll)
      obtain ⟨answer, serves, tells⟩ := exchange_serves reread mirrors' distinct stored brought
        (fun e sent => inAll (.inr ⟨talk.1, last, .inr sent⟩)) (talkStep_eq_some stepped)
      refine ⟨mirrors'.talkStep stepped, fun e there => ?_, visits ++ [(talk.1.asked X, answer)],
        made.snoc serves, List.rel_append told (.cons tells .nil)⟩
      rcases serves.bounded there with was | ⟨items, asked, posted⟩
      · exact stored was
      · exact brought (posted_brought asked posted)

/-- **Every conversation with the database thread is one with a board.** From any mirrored
store, whatever clients and peers send, byte by byte, and whatever they hear: the entries are the
items of a board that was asked just this and answered just so. No two of the entries that are
involved may share a digest, and numbers have to be read back as they are written. -/
theorem talk_refines {s₀ s : Store} {talks : List (DbOp × Output)} (reread : ∀ x, X.reread x = x)
    (mirrors : Mirrors X s₀) (distinct : Distinct X (involved X s₀.db (talks.map Prod.fst)))
    (run : Run (talkStep X) (fun _ _ => True) s₀ talks s) :
    ∃ visits, Visits (keyOf X) (authorOf X) (entries s₀.db) visits (entries s.db) ∧
      List.Forall₂ (Tells X) talks visits :=
  (talk_visits reread mirrors distinct subset_rfl run).2.2

theorem asked_of_visit {talks : List (DbOp × Output)}
    {visits : List (Ask Bytes Bytes Bytes × Answer Bytes Bytes)}
    (told : List.Forall₂ (Tells X) talks visits) {visit : Ask Bytes Bytes Bytes × Answer Bytes Bytes}
    (member : visit ∈ visits) : ∃ talk ∈ talks, visit.1 = talk.1.asked X := by
  induction told with
  | nil => cases member
  | cons tells _ ih =>
      rcases List.mem_cons.mp member with rfl | later
      · refine ⟨_, List.mem_cons_self, ?_⟩
        cases tells <;> rfl
      · obtain ⟨talk, inTalks, same⟩ := ih later
        exact ⟨talk, List.mem_cons_of_mem _ inTalks, same⟩

/-- **A listing of hashes is complete and sound.** After any conversation, the reply to
`db list hash` names, once each, every entry that was stored when it began and that its author
has not asked to remove since, and no key but of an entry that was stored then or brought since. -/
theorem listing_faithful {s₀ s s' : Store} {talks : List (DbOp × Output)}
    (reread : ∀ x, X.reread x = x) (mirrors : Mirrors X s₀)
    (distinct : Distinct X (involved X s₀.db (talks.map Prod.fst)))
    (run : Run (talkStep X) (fun _ _ => True) s₀ talks s) {myPeers : List Bytes} {files : Files}
    {msg q text : Bytes} (asks : Request.read (commandOf msg) = .list q)
    (hash : listAsked (trim q) = .keys)
    (heard : talkStep X s (.client myPeers files msg, .reply text) = some s') :
    ∃ keys, text = listing keys ∧ keys.Nodup ∧
      (∀ e ∈ entries s₀.db, (∀ talk ∈ talks, ∀ wanted,
        talk.1.asked X = .withdraw (authorOf X e) wanted → keyOf X e ∉ wanted) → keyOf X e ∈ keys) ∧
      ∀ k ∈ keys, ∃ e, keyOf X e = k ∧ (e ∈ entries s₀.db ∨ ∃ talk ∈ talks, talk.1.Brings X e) := by
  obtain ⟨mirrors', stored, visits, made, told⟩ := talk_visits reread mirrors distinct subset_rfl run
  have nothing : {e | DbOp.Brings X (.client myPeers files msg) e} ⊆
      involved X s₀.db (talks.map Prod.fst) := by
    rintro e ⟨d, submitted, -⟩
    rw [asks] at submitted
    cases submitted
  obtain ⟨answer, serves, tells⟩ := exchange_serves reread mirrors' distinct stored nothing
    (Set.empty_subset _) (talkStep_eq_some heard)
  have asked : DbOp.asked X (.client myPeers files msg) = .keys := by
    simp only [DbOp.asked, asks, hash]
  rw [asked] at serves
  obtain ⟨keys, listed, once, rfl⟩ : ∃ keys, (∀ k, k ∈ keys ↔ ∃ e ∈ entries s.db, keyOf X e = k) ∧
      keys.Nodup ∧ answer = .keys keys := by
    generalize entries s'.db = after at serves
    cases serves with
    | keys once listed => exact ⟨_, listed, once, rfl⟩
  refine ⟨keys, ?_, once, fun e there left => (listed _).mpr ⟨e, made.kept there ?_, rfl⟩,
    fun k member => ?_⟩
  · cases tells with
    | client heard => exact heard _ rfl
  · intro visit member wanted same
    obtain ⟨talk, inTalks, asked⟩ := asked_of_visit told member
    exact left talk inTalks wanted (asked ▸ same)
  · obtain ⟨e, there, same⟩ := (listed k).mp member
    refine ⟨e, same, (made.bounded there).imp_right ?_⟩
    rintro ⟨visit, inVisits, items, posts, posted⟩
    obtain ⟨talk, inTalks, asked⟩ := asked_of_visit told inVisits
    exact ⟨talk, inTalks, posted_brought (asked ▸ posts) posted⟩

section Witness

open Reference

/-- `alice` adds an ad and asks for the listing. -/
def addAndList : List (DbOp × Output) :=
  [(.client [] (fun _ => some (entry "1" "")) (bytes "db add json ad.json AUTH:" ++ alice),
      .reply (addedReply 1)),
   (.client [] (fun _ => none) (bytes "db list hash"),
      .reply (listing [hex (sha256 (aliceEntry "1"))]))]

theorem addAndList_brings : ∀ talk ∈ addAndList, ∀ e, talk.1.Brings (reference true) e →
    e = aliceEntry "1" := by
  have added : ∀ d ∈ (Request.read (commandOf (bytes "db add json ad.json AUTH:" ++ alice))).submits
      (reference true) (fun _ => some (entry "1" "")),
      entryOf (reference true) (userOf (bytes "db add json ad.json AUTH:" ++ alice)) d =
        aliceEntry "1" := by decide +kernel
  have listed : (Request.read (commandOf (bytes "db list hash"))).submits (reference true)
      (fun _ => none) = [] := by decide +kernel
  intro talk member e brings
  simp only [addAndList, List.mem_cons, List.not_mem_nil, or_false] at member
  rcases member with rfl | rfl
  · obtain ⟨d, submitted, rfl⟩ := brings
    exact added d submitted
  · obtain ⟨d, submitted, -⟩ := brings
    rw [listed] at submitted
    cases submitted

theorem addAndList_distinct :
    Distinct (reference true) (involved (reference true) [] (addAndList.map Prod.fst)) := by
  have one : ∀ e ∈ involved (reference true) [] (addAndList.map Prod.fst), e = aliceEntry "1" := by
    rintro e (⟨_, impossible, -⟩ | ⟨op, member, brings | sent⟩)
    · cases impossible
    · obtain ⟨talk, inTalks, rfl⟩ := List.mem_map.mp member
      exact addAndList_brings talk inTalks e brings
    · simp only [addAndList, List.map_cons, List.map_nil, List.mem_cons, List.not_mem_nil,
        or_false] at member
      rcases member with rfl | rfl <;> cases sent
  exact fun e inOne e' inOne' _ => (one e inOne).trans (one e' inOne').symm

theorem talk_refines_alice : ∃ s, Run (talkStep (reference true)) (fun _ _ => True) ⟨[], []⟩ addAndList s ∧
    ∃ visits, Visits (keyOf (reference true)) (authorOf (reference true)) (entries []) visits
      (entries s.db) ∧ List.Forall₂ (Tells (reference true)) addAndList visits :=
  have run : Run (talkStep (reference true)) (fun _ _ => True) ⟨[], []⟩ addAndList
      ((exec (talkStep (reference true)) ⟨[], []⟩ addAndList).get (by decide +kernel)) :=
    .computed _ fun _ _ _ => trivial
  ⟨_, run, talk_refines (fun _ => rfl) .empty addAndList_distinct run⟩

/-- The listing that `alice` hears names her ad and nothing else. -/
theorem listing_faithful_alice : ∃ s s', Run (talkStep (reference true)) (fun _ _ => True) ⟨[], []⟩
      (addAndList.take 1) s ∧
    talkStep (reference true) s (.client [] (fun _ => none) (bytes "db list hash"),
      .reply (listing [hex (sha256 (aliceEntry "1"))])) = some s' ∧
    ∃ keys, listing [hex (sha256 (aliceEntry "1"))] = listing keys ∧
      ∀ k ∈ keys, k = hex (sha256 (aliceEntry "1")) := by
  have run : Run (talkStep (reference true)) (fun _ _ => True) ⟨[], []⟩ (addAndList.take 1)
      ((exec (talkStep (reference true)) ⟨[], []⟩ (addAndList.take 1)).get (by decide +kernel)) :=
    .computed _ fun _ _ _ => trivial
  have fewer : involved (reference true) [] ((addAndList.take 1).map Prod.fst) ⊆
      involved (reference true) [] (addAndList.map Prod.fst) := by
    refine Set.union_subset_union_right _ ?_
    rintro e ⟨op, member, from_⟩
    exact ⟨op, (List.take_sublist 1 addAndList).map Prod.fst |>.subset member, from_⟩
  have heard : (talkStep (reference true) ((exec (talkStep (reference true)) ⟨[], []⟩
      (addAndList.take 1)).get (by decide +kernel)) (.client [] (fun _ => none) (bytes "db list hash"),
      .reply (listing [hex (sha256 (aliceEntry "1"))]))).isSome = true := by decide +kernel
  obtain ⟨s', heard⟩ := Option.isSome_iff_exists.mp heard
  have hash : listAsked (trim (bytes "hash")) = .keys := by
    rw [listAsked, if_neg (by decide), if_neg (by decide), if_neg (by decide), if_pos (by decide)]
  obtain ⟨keys, text, -, -, sound⟩ := listing_faithful (fun _ => rfl) .empty
    (addAndList_distinct.mono fewer) run (by decide +kernel) hash heard
  refine ⟨_, s', run, heard, keys, text, fun k member => ?_⟩
  obtain ⟨e, rfl, impossible | ⟨talk, inTalks, brings⟩⟩ := sound k member
  · obtain ⟨_, impossible, -⟩ := impossible
    cases impossible
  · exact congrArg (keyOf (reference true))
      (addAndList_brings talk ((List.take_sublist 1 _).subset inTalks) e brings)

end Witness

end Piac
