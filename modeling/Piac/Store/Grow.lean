/-
# Store.Grow — adds form a grow-only set

The abstract view of a database is the set of its entries (`entries`). A `db add` and
a batch of entries of a peer both unite it with what they submit (`GrowOp.submitted`):
for a client the entries of its ads, for a peer what its entries re-serialise to. So
the set that a sequence of them ends in does not depend on their order or on how
often they are repeated (`grow_only`).

Both ways in compare hashes, so this speaks of databases in which no two of the
entries concerned share a SHA-256 digest (`Distinct`).
-/
import Piac.Store.Admission
import Mathlib.Data.Set.Function

namespace Piac

set_option autoImplicit false

open Piac.Theory.CppString Piac.Theory.TermStore Piac.Theory.Transition

variable {X : Platform}

/-! ## The abstract view -/

def entries (db : Database) : Set Bytes := {e | ∃ doc ∈ db, doc.data = e}

variable (X) in
/-- No two of the entries share a digest. -/
abbrev Distinct (concerned : Set Bytes) : Prop := Set.InjOn X.sha256 concerned

/-- An entry is stored if its digest is. -/
theorem mem_entries_of_hash {db : Database} {e : Bytes} {concerned : Set Bytes}
    (distinct : Distinct X concerned) (stored : entries db ⊆ concerned) (isConcerned : e ∈ concerned)
    (hash : X.sha256 e ∈ hashes X db) : e ∈ entries db := by
  obtain ⟨doc, member, same⟩ := mem_hashes.mp hash
  have data : doc.data ∈ entries db := ⟨doc, member, rfl⟩
  rw [distinct isConcerned (stored data) same.symm]
  exact data

theorem hash_mem_of_entry {db : Database} {e : Bytes} (stored : e ∈ entries db) :
    X.sha256 e ∈ hashes X db := by
  obtain ⟨doc, member, rfl⟩ := stored
  exact mem_hashes.mpr ⟨doc, member, rfl⟩

/-! ## Operations -/

variable (X) in
/-- A `db add` of a file under a user, or a batch of entries of a peer. -/
inductive GrowOp where
  | add (author : Bytes) (docs : List (Document X.Num))
  | ins (batch : List Bytes)

namespace GrowOp

/-- The entries that an operation submits, as they are to be stored. -/
def submitted : GrowOp X → Set Bytes
  | .add author docs => {e | ∃ ad ∈ docs, entryOf X author ad = e}
  | .ins batch => {e | ∃ d ∈ batch, Reserializes X d e}

/-- The entries of a peer as they are sent. -/
def sent : GrowOp X → Set Bytes
  | .add _ _ => ∅
  | .ins batch => {e | e ∈ batch}

/-- What a Debug build asserts, and that the entries of a peer have authors. -/
def Admissible : GrowOp X → Prop
  | .add author _ => X.ndebug = true ∨ author ≠ []
  | .ins batch => (X.ndebug = true ∨ batch ≠ []) ∧ ∀ d ∈ batch, Attributed X d

variable (X) in
def step (s : Store) : GrowOp X → Option Store
  | .add author docs => (clientOp X s (.add author docs)).toOption.map (·.1)
  | .ins batch => (dbPeerOp X s (.ins batch)).toOption.map (·.1)

end GrowOp

/-- What is stored already or gets to the daemon in one of the operations. -/
def concerned (db : Database) (ops : List (GrowOp X)) : Set Bytes :=
  entries db ∪ {e | ∃ op ∈ ops, e ∈ op.submitted ∨ e ∈ op.sent}

/-! ## One operation -/

theorem step_add {s s' : Store} {author : Bytes} {docs : List (Document X.Num)}
    {all : Set Bytes} (mirrors : Mirrors X s) (distinct : Distinct X all)
    (stored : entries s.db ⊆ all) (inAll : (GrowOp.add author docs).submitted ⊆ all)
    (stepped : GrowOp.step X s (.add author docs) = some s') :
    Mirrors X s' ∧ entries s'.db = entries s.db ∪ (GrowOp.add author docs).submitted := by
  obtain ⟨⟨s₁, notes⟩, done, rfl⟩ := toOption_map_eq_some.mp stepped
  obtain ⟨mirrors', -, hash⟩ := clientOp_add mirrors done
  have subset : entries s₁.db ⊆ entries s.db ∪ (GrowOp.add author docs).submitted := by
    rintro _ ⟨doc, member, rfl⟩
    rcases clientOp_add_data mirrors done member with ⟨old, inDb, same⟩ | ⟨ad, inDocs, same⟩
    · exact .inl ⟨old, inDb, same⟩
    · exact .inr ⟨ad, inDocs, same.symm⟩
  have stored' : entries s₁.db ⊆ all := subset.trans (Set.union_subset stored inAll)
  refine ⟨mirrors', subset.antisymm ?_⟩
  rintro e (old | ⟨ad, inDocs, rfl⟩)
  · exact mem_entries_of_hash distinct stored' (stored old)
      ((hash _).mpr (.inl (hash_mem_of_entry old)))
  · exact mem_entries_of_hash distinct stored' (inAll ⟨ad, inDocs, rfl⟩)
      ((hash _).mpr (.inr ⟨ad, inDocs, rfl⟩))

/-- An entry whose digest is known is stored, and is what it re-serialises to. -/
theorem known_of_hash {s : Store} {all : Set Bytes} {d e : Bytes}
    (reread : ∀ x, X.reread x = x) (mirrors : Mirrors X s) (distinct : Distinct X all)
    (stored : entries s.db ⊆ all) (inAll : d ∈ all) (known : X.sha256 d ∈ s.myHashes)
    (reserializes : Reserializes X d e) : e ∈ entries s.db := by
  have inDb : d ∈ entries s.db :=
    mem_entries_of_hash distinct stored inAll ((mirrors.same _).mp known)
  obtain ⟨doc, member, rfl⟩ := inDb
  obtain ⟨ad, written⟩ := mirrors.well.written doc member
  rw [written] at reserializes
  rw [reserializes.same reread, ← written]
  exact ⟨doc, member, rfl⟩

theorem step_ins {s s' : Store} {batch : List Bytes} {all : Set Bytes}
    (reread : ∀ x, X.reread x = x) (mirrors : Mirrors X s) (distinct : Distinct X all)
    (stored : entries s.db ⊆ all) (inAll : (GrowOp.ins (X := X) batch).submitted ⊆ all)
    (sent : (GrowOp.ins (X := X) batch).sent ⊆ all)
    (stepped : GrowOp.step X s (.ins batch) = some s') :
    Mirrors X s' ∧ entries s'.db = entries s.db ∪ (GrowOp.ins (X := X) batch).submitted := by
  obtain ⟨⟨s₁, reps⟩, done, rfl⟩ := toOption_map_eq_some.mp stepped
  have mirrors' := mirrors.dbPeerOp done
  have subset : entries s₁.db ⊆ entries s.db ∪ (GrowOp.ins (X := X) batch).submitted := by
    rintro _ ⟨doc, member, rfl⟩
    rcases dbPeerOp_ins_data mirrors done member with ⟨old, inDb, same⟩ | ⟨d, inBatch, again⟩
    · exact .inl ⟨old, inDb, same⟩
    · exact .inr ⟨d, inBatch, again⟩
  have stored' : entries s₁.db ⊆ all := subset.trans (Set.union_subset stored inAll)
  -- an entry is new to the database, or it is there already
  have hash : ∀ h, h ∈ hashes X s.db → h ∈ hashes X s₁.db := by
    intro h old
    rcases dbPeerOp_ins mirrors done with ⟨-, rfl, -⟩ | ⟨-, -, -, hash⟩
    · exact old
    · exact (hash h).mpr (.inl old)
  have kept : entries s.db ⊆ entries s₁.db := fun e old =>
    mem_entries_of_hash distinct stored' (stored old) (hash _ (hash_mem_of_entry old))
  refine ⟨mirrors', subset.antisymm (Set.union_subset kept ?_)⟩
  rintro e ⟨d, inBatch, reserializes⟩
  by_cases known : X.sha256 d ∈ s.myHashes
  · exact kept (known_of_hash reread mirrors distinct stored (sent inBatch) known reserializes)
  · have new : d ∈ unknownDocs X s.myHashes batch :=
      List.mem_filter.mpr ⟨inBatch, by simpa using known⟩
    rcases dbPeerOp_ins mirrors done with ⟨nothing, -, -⟩ | ⟨-, -, -, hash⟩
    · rw [nothing] at new
      cases new
    · exact mem_entries_of_hash distinct stored' (inAll ⟨d, inBatch, reserializes⟩)
        ((hash _).mpr (.inr ⟨d, new, e, reserializes, rfl⟩))

theorem step_exists {s : Store} {op : GrowOp X} (admissible : op.Admissible) :
    ∃ s', GrowOp.step X s op = some s' := by
  cases op with
  | add author docs =>
      obtain ⟨r, done⟩ := clientOp_add_ok docs s admissible
      exact ⟨r.1, toOption_map_eq_some.mpr ⟨r, done, rfl⟩⟩
  | ins batch =>
      obtain ⟨some_, named⟩ := admissible
      have parse : ∀ d ∈ unknownDocs X s.myHashes batch,
          ∃ r, Document.deserialize X d = .ok r := by
        intro d new
        obtain ⟨ad, read, -⟩ := named d (List.mem_filter.mp new).1
        exact ⟨some ad, read⟩
      obtain ⟨db, put⟩ := dbPutDocs_ok s.db parse
      have asserted : X.assert .ins (batch ≠ []) = .ok () :=
        Platform.assert_eq_ok.mpr (by simpa using some_)
      by_cases nothing : unknownDocs X s.myHashes batch = []
      · refine ⟨s, toOption_map_eq_some.mpr ⟨(s, []), ?_, rfl⟩⟩
        simp only [dbPeerOp, bind_eq_ok]
        exact ⟨(), asserted, by rw [if_pos nothing]; rfl⟩
      · refine ⟨_, toOption_map_eq_some.mpr ⟨(dbUpdateHashes X { s with db }, [.new]), ?_, rfl⟩⟩
        simp only [dbPeerOp, bind_eq_ok]
        refine ⟨(), asserted, ?_⟩
        rw [if_neg nothing, bind_eq_ok]
        exact ⟨db, put, rfl⟩

/-- A canonical entry is stored as it is, under its own digest. -/
theorem ins_canonical {s : Store} {e : Bytes} (reread : ∀ x, X.reread x = x)
    (mirrors : Mirrors X s) (canonical : Canonical X e)
    (distinct : Distinct X (insert e (entries s.db))) :
    ∃ s', GrowOp.step X s (.ins [e]) = some s' ∧ entries s'.db = insert e (entries s.db) ∧
      entryUnder X s'.db (X.sha256 e) = some e := by
  have submits : (GrowOp.ins (X := X) [e]).submitted = {e} := by
    ext other
    simp only [GrowOp.submitted, List.mem_singleton, exists_eq_left, Set.mem_singleton_iff]
    exact canonical.reserializes_iff
  obtain ⟨s', stepped⟩ := @step_exists X s (.ins [e]) ⟨.inr (by simp), by simpa using canonical.attributed⟩
  obtain ⟨mirrors', grown⟩ := step_ins reread mirrors distinct (Set.subset_insert _ _)
    (by rw [submits]; simp) (by simp [GrowOp.sent]) stepped
  rw [submits, Set.union_singleton] at grown
  obtain ⟨doc, member, same⟩ : e ∈ entries s'.db := by simp [grown]
  exact ⟨s', stepped, grown, (entryUnder_eq_some mirrors'.well).mpr ⟨doc, member, same, rfl⟩⟩

/-! ## Sequences of operations -/

/-- All that the operations submit. -/
def submittedBy (ops : List (GrowOp X)) : Set Bytes := {e | ∃ op ∈ ops, e ∈ op.submitted}

theorem step_grows {s s' : Store} {op : GrowOp X} {all : Set Bytes}
    (reread : ∀ x, X.reread x = x) (mirrors : Mirrors X s) (distinct : Distinct X all)
    (stored : entries s.db ⊆ all) (inAll : ∀ e, e ∈ op.submitted ∨ e ∈ op.sent → e ∈ all)
    (stepped : GrowOp.step X s op = some s') :
    Mirrors X s' ∧ entries s'.db = entries s.db ∪ op.submitted := by
  cases op with
  | add author docs =>
      exact step_add mirrors distinct stored (fun e submitted => inAll e (.inl submitted)) stepped
  | ins batch =>
      exact step_ins reread mirrors distinct stored (fun e submitted => inAll e (.inl submitted))
        (fun e sent => inAll e (.inr sent)) stepped

/-- The operations of a run unite the set of entries with what they submit. -/
theorem run_grows {s s' : Store} {ops : List (GrowOp X)} {all : Set Bytes}
    (reread : ∀ x, X.reread x = x) (mirrors : Mirrors X s) (distinct : Distinct X all)
    (inAll : concerned s.db ops ⊆ all)
    (run : Run (GrowOp.step X) (fun _ _ => True) s ops s') :
    Mirrors X s' ∧ entries s'.db = entries s.db ∪ submittedBy ops := by
  induction run with
  | nil => exact ⟨mirrors, by simp [submittedBy]⟩
  | @snoc ops t u op before _ stepped ih =>
      have earlier : concerned s.db ops ⊆ concerned s.db (ops ++ [op]) := by
        rintro e (old | ⟨op', member, from_⟩)
        · exact .inl old
        · exact .inr ⟨op', List.mem_append_left _ member, from_⟩
      obtain ⟨mirrors', grown⟩ := ih (earlier.trans inAll)
      have stored : entries t.db ⊆ all := by
        rw [grown]
        rintro e (old | ⟨op', member, submitted⟩)
        · exact inAll (.inl old)
        · exact inAll (.inr ⟨op', List.mem_append_left _ member, .inl submitted⟩)
      obtain ⟨mirrors'', step⟩ := step_grows reread mirrors' distinct stored
        (fun e from_ => inAll (.inr ⟨op, by simp, from_⟩)) stepped
      refine ⟨mirrors'', ?_⟩
      rw [step, grown, Set.union_assoc]
      congr 1
      ext e
      simp [submittedBy, or_and_right, exists_or]

theorem run_exists (s : Store) {ops : List (GrowOp X)} (admissible : ∀ op ∈ ops, op.Admissible) :
    ∃ s', Run (GrowOp.step X) (fun _ _ => True) s ops s' := by
  induction ops generalizing s with
  | nil => exact ⟨s, .nil⟩
  | cons op rest ih =>
      obtain ⟨t, stepped⟩ := step_exists (s := s) (admissible op List.mem_cons_self)
      obtain ⟨s', run⟩ := ih t fun op' inRest => admissible op' (List.mem_cons_of_mem _ inRest)
      exact ⟨s', .cons trivial stepped run⟩

/-- **Adds form a grow-only set, and both ways in agree.** From any database, any sequence of
`db add`s and of batches of entries with authors runs to its end, and the entries are then those
at the start and the canonical entries of all that was submitted. So another sequence of the same
operations, in whatever order and however often, ends in the same set. And an entry that
`index_db` stored at one daemon is stored byte for byte, and under the same hash, by another that
gets it in an INS. -/
theorem adds_grow_only (reread : ∀ x, X.reread x = x) {s : Store} {ops : List (GrowOp X)}
    (mirrors : Mirrors X s) (admissible : ∀ op ∈ ops, op.Admissible)
    (distinct : Distinct X (concerned s.db ops)) :
    (∃ s', Run (GrowOp.step X) (fun _ _ => True) s ops s' ∧
      entries s'.db = entries s.db ∪ submittedBy ops) ∧
    (∀ ops' : List (GrowOp X), (∀ op, op ∈ ops' ↔ op ∈ ops) → ∀ s' s'',
      Run (GrowOp.step X) (fun _ _ => True) s ops s' →
      Run (GrowOp.step X) (fun _ _ => True) s ops' s'' → entries s''.db = entries s'.db) ∧
    ∀ (s₁ s₂ : Store) (author : Bytes) (docs : List (Document X.Num)) (e : Bytes),
      Mirrors X s₁ → GrowOp.step X s₁ (.add author docs) = some s₂ →
      e ∈ entries s₂.db → e ∉ entries s₁.db → Attributed X e →
      ∀ t : Store, Mirrors X t → Distinct X (insert e (entries t.db)) →
        ∃ t', GrowOp.step X t (.ins [e]) = some t' ∧ entries t'.db = insert e (entries t.db) ∧
          entryUnder X t'.db (X.sha256 e) = some e := by
  refine ⟨?_, ?_, ?_⟩
  · obtain ⟨s', run⟩ := run_exists s admissible
    exact ⟨s', run, (run_grows reread mirrors distinct subset_rfl run).2⟩
  · intro ops' same s' s'' run run'
    have all : concerned s.db ops' = concerned s.db ops := by simp [concerned, same]
    rw [(run_grows reread mirrors distinct subset_rfl run).2,
      (run_grows reread mirrors distinct all.subset run').2]
    simp [submittedBy, same]
  · rintro s₁ s₂ author docs e mirrors₁ added ⟨doc, member, rfl⟩ fresh attributed t mirrors distinct
    obtain ⟨⟨_, notes⟩, done, rfl⟩ := toOption_map_eq_some.mp added
    have canonical : Canonical X doc.data := by
      rcases clientOp_add_data mirrors₁ done member with old | ⟨ad, -, same⟩
      · exact absurd old fresh
      · rw [same] at attributed ⊢
        exact canonical_entryOf (reread _) (attributed_entryOf.mp attributed)
    exact ins_canonical reread mirrors canonical distinct

open Reference in
/-- It applies to a file with one ad twice, and to an ad of a peer. -/
theorem adds_grow_only_two : ∃ s, Run (GrowOp.step (reference true)) (fun _ _ => True) ⟨[], []⟩
    [.add alice [ad 1, ad 1], .ins [aliceEntry "2"]] s ∧
    entries s.db = {aliceEntry "1", aliceEntry "2"} := by
  let ops : List (GrowOp (reference true)) := [.add alice [ad 1, ad 1], .ins [aliceEntry "2"]]
  have first : entryOf (reference true) alice (ad 1) = aliceEntry "1" := by decide +kernel
  have second : entryOf (reference true) alice (ad 2) = aliceEntry "2" := by decide +kernel
  have canonical : Canonical (reference true) (aliceEntry "2") :=
    second ▸ canonical_entryOf rfl (by decide)
  have submits : submittedBy ops = {aliceEntry "1", aliceEntry "2"} := by
    have file : (GrowOp.add (X := reference true) alice [ad 1, ad 1]).submitted =
        {aliceEntry "1"} := by
      ext e
      constructor
      · rintro ⟨d, inFile, rfl⟩
        rcases List.mem_cons.mp inFile with rfl | inFile
        · exact first
        · cases List.mem_singleton.mp inFile
          exact first
      · rintro rfl
        exact ⟨ad 1, List.mem_cons_self, first⟩
    ext e
    have batch : e ∈ (GrowOp.ins (X := reference true) [aliceEntry "2"]).submitted ↔
        e = aliceEntry "2" := by
      simp only [GrowOp.submitted, List.mem_singleton, exists_eq_left]
      exact canonical.reserializes_iff
    simp [submittedBy, ops, file, batch]
  have all : concerned [] ops ⊆ {aliceEntry "1", aliceEntry "2"} := by
    rintro e (⟨_, impossible, -⟩ | ⟨op, member, submitted | sent⟩)
    · cases impossible
    · rw [← submits]
      exact ⟨op, member, submitted⟩
    · simp only [ops, List.mem_cons, List.not_mem_nil, or_false] at member
      rcases member with rfl | rfl
      · cases sent
      · exact .inr (List.mem_singleton.mp sent)
  have apart : (reference true).sha256 (aliceEntry "1") ≠ (reference true).sha256 (aliceEntry "2") := by
    decide +kernel
  have distinct : Distinct (reference true) (concerned [] ops) := by
    refine Set.InjOn.mono all ?_
    rintro x (rfl | rfl) y (rfl | rfl) same
    · rfl
    · exact absurd same apart
    · exact absurd same.symm apart
    · rfl
  have admissible : ∀ op ∈ ops, op.Admissible := by
    simp only [ops, List.mem_cons, List.not_mem_nil, or_false]
    rintro op (rfl | rfl)
    · exact .inl rfl
    · exact ⟨.inl rfl, by simpa using canonical.attributed⟩
  obtain ⟨s, run, grown⟩ := (adds_grow_only (fun _ => rfl) .empty admissible distinct).1
  refine ⟨s, run, ?_⟩
  rw [grown, submits]
  simp [entries]

end Piac
