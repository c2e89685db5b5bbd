/-
# Store.Survival — what is stored survives failures and deaths

Every Xapian call of the db thread may fail, and a message may end the daemon; the next one
finds what was on disk and lists it (`lifeStep`). `Between` says of a database that it is what
was stored before, with some of what a message brings and without some of what it may take
out; every state of the database while the message is handled is (`handler_between`).

`store_survives`: over any life of a daemon, with any outcomes and any number of deaths, the
database stays well stored, an ad is lost only to a removal under the name of its author,
nothing is stored that was not sent, and no hash is announced that is not stored.
-/
import Piac.Daemon.Keeping
import Piac.Store.Withdraw

namespace Piac

set_option autoImplicit false

open Piac.Theory.CppString Piac.Theory.TermStore Piac.Theory.Transition
open Piac.Rpc (KeepsAdd KeepsRm Announces)

/-! ## Lives of a daemon -/

/-- A message, how the Xapian calls end that are made for it, and how those of the next daemon
do if it ends this one. -/
structure LifeOp where
  op : DbOp
  outcomes : List Outcome
  restart : List Outcome

variable (X : Platform)

/-- The store after a message. A daemon that ends is started again on what is on disk. -/
def lifeStep (s : Store) (l : LifeOp) : Option Store :=
  match (rpcHandler X l.op).run (.of s l.outcomes) with
  | .ok _ w => some w.store
  | .error _ w =>
      match (Rpc.dbThreadStart X).run (.of ⟨w.disk, []⟩ l.restart) with
      | .ok _ w => some w.store
      | .error _ _ => none

/-- What a message may take out: the entries of its user that it asks to remove. -/
def DbOp.Withdraws : DbOp → Bytes → Prop
  | .client _ _ msg, entry => ∃ q, Request.read (commandOf msg) = .rm q ∧
      hex (X.sha256 entry) ∈ tokenize (trim q) ∧ authorOf X entry = userOf msg
  | .peer _, _ => False

/-- What a message may bring: ads submitted under its user, or entries of a peer as they are
written back. -/
def DbOp.Brings : DbOp → Bytes → Prop
  | .client _ files msg, entry =>
      ∃ d ∈ (Request.read (commandOf msg)).submits X files, entryOf X (userOf msg) d = entry
  | .peer (.ins docs), entry => ∃ e ∈ docs, Reserializes X e entry
  | .peer (.get _ _), _ => False

/-- What was stored before, with some of what is gained and without some of what is lost. -/
structure Between (before : Database) (lost gained : Bytes → Prop) (db : Database) : Prop where
  well : WellStored X db
  kept : ∀ h ∈ hashes X before, h ∈ hashes X db ∨ ∃ entry, X.sha256 entry = h ∧ lost entry
  bounded : ∀ doc ∈ db, (∃ old ∈ before, old.data = doc.data) ∨ gained doc.data

variable {X}

/-! ## One message -/

theorem Between.refl {db : Database} (well : WellStored X db) (lost gained : Bytes → Prop) :
    Between X db lost gained db :=
  ⟨well, fun _ member => .inl member, fun doc member => .inl ⟨doc, member, rfl⟩⟩

/-- One message after others. -/
theorem Between.trans {ls : List LifeOp} {before middle after : Database} {l : LifeOp}
    (first : Between X before (fun entry => ∃ l ∈ ls, l.op.Withdraws X entry)
      (fun entry => ∃ l ∈ ls, l.op.Brings X entry) middle)
    (second : Between X middle (l.op.Withdraws X) (l.op.Brings X) after) :
    Between X before (fun entry => ∃ k ∈ ls ++ [l], k.op.Withdraws X entry)
      (fun entry => ∃ k ∈ ls ++ [l], k.op.Brings X entry) after := by
  have last : l ∈ ls ++ [l] := List.mem_append_right _ (List.mem_singleton_self l)
  refine ⟨second.well, fun h member => ?_, fun doc member => ?_⟩
  · rcases first.kept h member with held | ⟨entry, digest, k, inLs, withdraws⟩
    · exact (second.kept h held).imp_right
        fun ⟨entry, digest, withdraws⟩ => ⟨entry, digest, l, last, withdraws⟩
    · exact .inr ⟨entry, digest, k, List.mem_append_left _ inLs, withdraws⟩
  · rcases second.bounded doc member with ⟨mid, inMid, same⟩ | brings
    · rw [← same]
      exact (first.bounded mid inMid).imp_right
        fun ⟨k, inLs, brings⟩ => ⟨k, List.mem_append_left _ inLs, brings⟩
    · exact .inr ⟨l, last, brings⟩

section Changes

variable {before : Database} {lost gained : Bytes → Prop}

/-- A document that is gained may be added. -/
theorem keepsAdd_between {author : Bytes} {ndoc : Document X.Num}
    (gains : gained (entryOf X author ndoc)) :
    KeepsAdd X (Between X before lost gained) author ndoc := by
  intro allowed db ⟨well, kept, bounded⟩
  have added : addDocument X author db ndoc = .ok
      (replace (hashTerm (X.sha256 (entryOf X author ndoc))) (xapianDoc X author ndoc) db,
        X.sha256 (entryOf X author ndoc)) := by
    have passes : X.assert .author (author ≠ []) = .ok () :=
      Platform.assert_eq_ok.mpr (by simpa using allowed)
    rw [addDocument, passes]
    rfl
  refine ⟨addDocument_wellStored well added, fun h member => ?_, fun doc member => ?_⟩
  · exact (kept h member).imp_left fun held => (addDocument_hashes well added h).mpr (.inl held)
  · rcases (addDocument_data well added doc.data).mp ⟨doc, member, rfl⟩ with new | ⟨⟨old, held, same⟩, -⟩
    · exact .inr (new ▸ gains)
    · exact same ▸ bounded old held

/-- A document may be deleted that is lost for being the author's and asked for. -/
theorem keepsRm_between {author : Bytes} {hashesToDelete : List Bytes}
    (loses : ∀ entry, hex (X.sha256 entry) ∈ hashesToDelete → authorOf X entry = author → lost entry) :
    KeepsRm X (Between X before lost gained) author hashesToDelete := by
  rintro db h doc ndoc ⟨well, kept, bounded⟩ found wanted read isAuthor
  obtain ⟨stored, indexed⟩ := mem_postings.mp (List.mem_of_head? found)
  have digest : X.sha256 doc.data = h := (well.indexed stored h).mp indexed
  obtain ⟨ad, parsed, same⟩ := well.read stored
  have own : authorOf X doc.data = author := by
    rw [parsed] at read
    cases read
    rw [isAuthor, ← same]
    rfl
  refine ⟨well.deleted _, fun other member => ?_, fun left member =>
    bounded left (mem_delete.mp member).1⟩
  rcases kept other member with held | gone
  · by_cases here : other = h
    · exact .inr ⟨doc.data, digest.trans here.symm, loses _ (digest ▸ wanted) own⟩
    · obtain ⟨left, inDb, rfl⟩ := mem_hashes.mp held
      refine .inl (mem_hashes.mpr ⟨left, mem_delete.mpr ⟨inDb, fun carries => here ?_⟩, rfl⟩)
      exact (well.indexed inDb h).mp carries
  · exact .inr gone

end Changes

/-- What a handler leaves on disk, whether or not it returns, and what it leaves in `my_hashes`
if it does. -/
theorem handler_between {s : Store} (well : WellStored X s.db)
    (announces : Announces X s.db s.myHashes) (op : DbOp) (outcomes : List Outcome) :
    (∀ u w, (rpcHandler X op).run (.of s outcomes) = .ok u w →
      Between X s.db (op.Withdraws X) (op.Brings X) w.disk ∧ Announces X w.disk w.myHashes) ∧
    ∀ e w, (rpcHandler X op).run (.of s outcomes) = .error e w →
      Between X s.db (op.Withdraws X) (op.Brings X) w.disk := by
  let P := Between X s.db (op.Withdraws X) (op.Brings X)
  have start : Out P s.myHashes (.of s outcomes) := ⟨.refl well _ _, rfl⟩
  -- where `my_hashes` is left alone nothing is lost
  have unchanged {w : World} (between : P w.disk) (same : w.myHashes = s.myHashes)
      (none_ : ∀ entry, ¬ op.Withdraws X entry) : Announces X w.disk w.myHashes := by
    rw [same]
    refine ⟨fun h member => ?_, announces.nodup⟩
    exact (between.kept h (announces.stored h member)).resolve_right
      fun ⟨entry, _, lost⟩ => none_ entry lost
  cases op with
  | client myPeers files msg =>
      have runs := run_of_triple (Rpc.dbClientOp_keeps (P := P) (m := s.myHashes) myPeers files msg
        (fun d member => keepsAdd_between ⟨d, member, rfl⟩)
        fun q removes => keepsRm_between fun entry wanted own => ⟨q, removes, wanted, own⟩) start
      refine ⟨fun u w done => ?_, fun e w failed => ?_⟩
      · rw [show (Rpc.dbClientOp X myPeers files msg).run _ = _ from done] at runs
        obtain ⟨between, listed | ⟨same, other⟩⟩ := runs
        · exact ⟨between, listed⟩
        · exact ⟨between, unchanged between same fun entry ⟨q, removes, _⟩ => other q removes⟩
      · rw [show (Rpc.dbClientOp X myPeers files msg).run _ = _ from failed] at runs
        exact runs
  | peer req =>
      have runs := run_of_triple (Rpc.dbPeerOp_keeps (P := P) (m := s.myHashes) req
        fun docs isIns d member ndoc read named => keepsAdd_between
          (by subst isIns; exact ⟨d, member, ndoc, read, named, rfl⟩)) start
      refine ⟨fun u w done => ?_, fun e w failed => ?_⟩
      · rw [show (Rpc.dbPeerOp X req).run _ = _ from done] at runs
        obtain ⟨between, listed | same⟩ := runs
        · exact ⟨between, listed⟩
        · exact ⟨between, unchanged between same fun _ lost => lost⟩
      · rw [show (Rpc.dbPeerOp X req).run _ = _ from failed] at runs
        exact runs

/-! ## Lives -/

/-- The next daemon comes up, and announces what is stored. -/
theorem dbThreadStart_announces {db : Database} (well : WellStored X db) (outcomes : List Outcome) :
    ∃ w, (Rpc.dbThreadStart X).run (.of ⟨db, []⟩ outcomes) = .ok () w ∧ w.disk = db ∧
      Announces X db w.myHashes := by
  have keeps := run_of_triple (Rpc.dbThreadStart_keeps (X := X) (P := (· = db)) (m := []))
    (w := .of ⟨db, []⟩ outcomes) ⟨rfl, rfl⟩
  have returns := run_of_triple (Rpc.dbThreadStart_spec (X := X) [])
    (w := .of ⟨db, []⟩ outcomes) ⟨well.written, .nil, fun _ member => absurd member List.not_mem_nil, rfl⟩
  cases result : (Rpc.dbThreadStart X).run (.of ⟨db, []⟩ outcomes) with
  | ok u w =>
      rw [result] at keeps
      exact ⟨w, rfl, keeps.1, keeps.1 ▸ keeps.2⟩
  | error e w =>
      rw [result] at returns
      exact returns.elim

theorem lifeStep_between {s : Store} (well : WellStored X s.db)
    (announces : Announces X s.db s.myHashes) (l : LifeOp) :
    ∃ s', lifeStep X s l = some s' ∧
      Between X s.db (l.op.Withdraws X) (l.op.Brings X) s'.db ∧ Announces X s'.db s'.myHashes := by
  obtain ⟨returns, dies⟩ := handler_between well announces l.op l.outcomes
  unfold lifeStep
  cases result : (rpcHandler X l.op).run (.of s l.outcomes) with
  | ok u w => exact ⟨w.store, rfl, returns u w result⟩
  | error e w =>
      have left := dies e w result
      obtain ⟨w', started, same, listed⟩ := dbThreadStart_announces left.well l.restart
      refine ⟨w'.store, by simp only [started], ?_, ?_⟩
      · show Between X s.db _ _ w'.disk
        rwa [same]
      · show Announces X w'.disk _
        rwa [same]

/-- **What is stored survives failures and deaths.** Over any life of a daemon, whatever it is
sent, however its Xapian calls end and however often it dies: the daemon comes up again; the
database stays well stored; what is announced is stored; an ad is lost only to a removal that
asks for it under the name of its author; and what is stored was stored at first or brought by
some message. -/
theorem store_survives {s₀ s : Store} {ls : List LifeOp} (well : WellStored X s₀.db)
    (announces : Announces X s₀.db s₀.myHashes)
    (run : Run (lifeStep X) (fun _ _ => True) s₀ ls s) :
    (∀ l, ∃ s', lifeStep X s l = some s') ∧ WellStored X s.db ∧ Announces X s.db s.myHashes ∧
    (∀ h ∈ hashes X s₀.db, h ∈ hashes X s.db ∨
      ∃ l ∈ ls, ∃ entry, X.sha256 entry = h ∧ l.op.Withdraws X entry) ∧
    ∀ doc ∈ s.db, (∃ old ∈ s₀.db, old.data = doc.data) ∨ ∃ l ∈ ls, l.op.Brings X doc.data := by
  let Lived (ls : List LifeOp) (s : Store) : Prop := Announces X s.db s.myHashes ∧
    Between X s₀.db (fun entry => ∃ l ∈ ls, l.op.Withdraws X entry)
      (fun entry => ∃ l ∈ ls, l.op.Brings X entry) s.db
  have lived : Lived ls s := by
    refine run.history ⟨announces, .refl well _ _⟩ fun ls s l t ⟨listed, so⟩ _ stepped => ?_
    obtain ⟨t', stepped', step, listed'⟩ := lifeStep_between so.well listed l
    rw [stepped] at stepped'
    cases stepped'
    exact ⟨listed', so.trans step⟩
  obtain ⟨listed, between⟩ := lived
  refine ⟨fun l => ?_, between.well, listed, fun h member => ?_, between.bounded⟩
  · obtain ⟨s', stepped, -⟩ := lifeStep_between between.well listed l
    exact ⟨s', stepped⟩
  · exact (between.kept h member).imp_right
      fun ⟨entry, digest, l, inLs, withdraws⟩ => ⟨l, inLs, entry, digest, withdraws⟩

open Reference in
/-- An ad is added, a request ends the daemon, and the next one fails to list what it has. -/
theorem store_survives_death : ∃ ls s, Run (lifeStep (reference true)) (fun _ _ => True) ⟨[], []⟩ ls s ∧
    s.myHashes = [] ∧ s.db.map Doc.data = [aliceEntry "1"] ∧
    ∃ l ∈ ls, l.op.Brings (reference true) (aliceEntry "1") := by
  let ls : List LifeOp :=
    [⟨.client [] (fun _ => some (entry "1" "")) (bytes "db add json ad.json AUTH:" ++ alice), [], []⟩,
     ⟨.client [] (fun _ => none) (bytes "AUTH:" ++ alice), [], [.returns, .returns, .raises]⟩]
  have run : Run (lifeStep (reference true)) (fun _ _ => True) ⟨[], []⟩ ls _ :=
    .computed (by decide +kernel) fun _ _ _ => trivial
  have one : ((exec (lifeStep (reference true)) ⟨[], []⟩ ls).get (by decide +kernel)).db.map Doc.data =
      [aliceEntry "1"] := by decide +kernel
  refine ⟨ls, _, run, by decide +kernel, one, ?_⟩
  have bounded := (store_survives .nil
    ⟨fun _ member => absurd member List.not_mem_nil, List.nodup_nil⟩ run).2.2.2.2
  obtain ⟨doc, member, same⟩ := List.mem_map.mp (one ▸ List.mem_singleton_self (aliceEntry "1"))
  rcases bounded doc member with ⟨old, stored, -⟩ | brings
  · cases stored
  · exact same ▸ brings

end Piac
