/-
# Store.Mirror — the database and its mirror in `my_hashes`

`my_hashes` is rebuilt from the database by hashing the stored entries, not by
reading their terms. `Mirrors` says that the two agree: the database is well
stored and `my_hashes` is, without repetition, the set of its hashes. Every
operation for a client or for the p2p thread that returns keeps it
(`Mirrors.clientOp`, `Mirrors.dbPeerOp`), so it holds after any sequence of them
(`mirrors_of_run`).

The lemmas named after an operation say what it did to the hashes and what it
sends; the network results use nothing else about the database.
-/
import Piac.Daemon.Reference
import Piac.Store.Contents
import Piac.Theory.Transition

namespace Piac

set_option autoImplicit false

open Piac.Theory.CppString Piac.Theory.TermStore Piac.Theory.Transition

variable {X : Platform}

variable (X) in
structure Mirrors (s : Store) : Prop where
  well : WellStored X s.db
  same : ∀ hash, hash ∈ s.myHashes ↔ hash ∈ hashes X s.db
  nodup : s.myHashes.Nodup

theorem dbUpdateHashes_mirrors {s : Store} (well : WellStored X s.db) :
    Mirrors X (dbUpdateHashes X s) :=
  ⟨well, fun hash => by simp [dbUpdateHashes, dbListHash_eq], List.nodup_dedup _⟩

@[simp] theorem dbUpdateHashes_db (s : Store) : (dbUpdateHashes X s).db = s.db := rfl

theorem Mirrors.empty : Mirrors X ⟨[], []⟩ := ⟨.nil, by simp [hashes], .nil⟩

/-- The mirror has as many hashes as the database has documents. -/
theorem Mirrors.length_eq {s : Store} (mirrors : Mirrors X s) :
    s.myHashes.length = getDoccount s.db := by
  have perm : s.myHashes.Perm (hashes X s.db) :=
    (List.perm_ext_iff_of_nodup mirrors.nodup mirrors.well.hashes_nodup).mpr mirrors.same
  rw [perm.length_eq, hashes, List.length_map, getDoccount]

/-! ## Operations for a client -/

theorem clientOp_add {s s' : Store} {author : Bytes} {docs : List (Document X.Num)}
    {notes : List DbRep} (mirrors : Mirrors X s)
    (done : clientOp X s (.add author docs) = .ok (s', notes)) :
    Mirrors X s' ∧ notes = [.new] ∧
      ∀ hash, hash ∈ hashes X s'.db ↔
        hash ∈ hashes X s.db ∨ ∃ d ∈ docs, X.sha256 (entryOf X author d) = hash := by
  simp only [clientOp, bind_eq_ok] at done
  obtain ⟨⟨⟩, -, ⟨db, n⟩, indexed, done⟩ := done
  cases done
  have well := indexDocs_wellStored mirrors.well indexed
  refine ⟨dbUpdateHashes_mirrors well, rfl, fun hash => ?_⟩
  rw [dbUpdateHashes_db, indexDocs_hashes mirrors.well indexed]
  constructor
  · rintro (old | ⟨d, member, same, -⟩)
    · exact .inl old
    · exact .inr ⟨d, member, same⟩
  · rintro (old | ⟨d, member, same⟩)
    · exact .inl old
    · by_cases known : hash ∈ s.myHashes
      · exact .inl ((mirrors.same hash).mp known)
      · exact .inr ⟨d, member, same, known⟩

theorem clientOp_add_data {s s' : Store} {author : Bytes} {docs : List (Document X.Num)}
    {notes : List DbRep} (mirrors : Mirrors X s)
    (done : clientOp X s (.add author docs) = .ok (s', notes)) {doc : Doc Bytes Bytes}
    (member : doc ∈ s'.db) :
    (∃ old ∈ s.db, old.data = doc.data) ∨ ∃ d ∈ docs, doc.data = entryOf X author d := by
  simp only [clientOp, bind_eq_ok] at done
  obtain ⟨⟨⟩, -, ⟨db, n⟩, indexed, done⟩ := done
  cases done
  exact indexDocs_data mirrors.well indexed member

theorem clientOp_rm {s s' : Store} {author : Bytes} {toDelete : List Bytes}
    {notes : List DbRep} (mirrors : Mirrors X s)
    (done : clientOp X s (.rm author toDelete) = .ok (s', notes)) :
    Mirrors X s' ∧ notes = [.new] ∧ ∀ doc ∈ s'.db, doc ∈ s.db := by
  simp only [clientOp, bind_eq_ok] at done
  obtain ⟨⟨⟩, -, ⟨db, reply⟩, removed, done⟩ := done
  cases done
  obtain ⟨well, subset⟩ := dbRmDocs_wellStored mirrors.well removed
  exact ⟨dbUpdateHashes_mirrors well, rfl, subset⟩

theorem Mirrors.clientOp {s s' : Store} {cmd : ClientCmd X} {notes : List DbRep}
    (mirrors : Mirrors X s) (done : clientOp X s cmd = .ok (s', notes)) : Mirrors X s' := by
  cases cmd with
  | add author docs => exact (clientOp_add mirrors done).1
  | rm author toDelete => exact (clientOp_rm mirrors done).1

/-- An add never ends a Release build. -/
theorem clientOp_add_ok {author : Bytes} (docs : List (Document X.Num)) (s : Store)
    (allowed : X.ndebug = true ∨ author ≠ []) :
    ∃ r, clientOp X s (.add author docs) = .ok r := by
  obtain ⟨r, indexed⟩ := indexDocs_ok (X := X) s.myHashes docs s.db 0 allowed
  exact ⟨_, bind_eq_ok.mpr ⟨(), Platform.assert_eq_ok.mpr (by simpa using allowed),
    bind_eq_ok.mpr ⟨r, indexed, rfl⟩⟩⟩

/-- What ends the process here is a request without user, in a Debug build. -/
theorem clientOp_error {s : Store} {cmd : ClientCmd X} {f : Fault} (mirrors : Mirrors X s)
    (failed : clientOp X s cmd = .error f) :
    X.ndebug = false ∧ cmd.author = [] ∧ f = .assertion .author := by
  have asserted : X.assert .author (cmd.author ≠ []) = .error f →
      X.ndebug = false ∧ cmd.author = [] ∧ f = .assertion .author := fun failed => by
    obtain ⟨⟨debug, empty⟩, same⟩ := Platform.assert_eq_error.mp failed
    exact ⟨debug, by simpa using empty, same⟩
  cases cmd with
  | add author docs =>
      simp only [clientOp, bind_eq_error] at failed
      rcases failed with first | ⟨⟨⟩, named, later | ⟨_, -, impossible⟩⟩
      · exact asserted first
      · obtain ⟨r, indexed⟩ := indexDocs_ok (X := X) s.myHashes docs s.db 0
          (by simpa using Platform.assert_eq_ok.mp named)
        rw [indexed] at later
        cases later
      · cases impossible
  | rm author toDelete =>
      simp only [clientOp, bind_eq_error] at failed
      rcases failed with first | ⟨⟨⟩, -, later | ⟨_, -, impossible⟩⟩
      · exact asserted first
      · unfold dbRmDocs at later
        split at later
        · cases later
        · have sized : ∀ h ∈ s.myHashes, h.length = 32 := fun h member =>
            length_of_mem_hashes ((mirrors.same h).mp member)
          obtain ⟨r, removed⟩ := @rmDocs_ok X author toDelete s.myHashes s.db mirrors.well sized 0
          rw [removed] at later
          cases later
      · cases impossible

/-! ## Operations for the p2p thread -/

theorem dbPeerOp_get {s s' : Store} {addr : Bytes} {wanted : List Bytes} {reps : List DbRep}
    (mirrors : Mirrors X s) (done : dbPeerOp X s (.get addr wanted) = .ok (s', reps)) :
    s' = s ∧ reps = [.put addr (wanted.filterMap (entryUnder X s.db))] := by
  simp only [dbPeerOp, bind_eq_ok] at done
  obtain ⟨⟨⟩, -, docs, got, done⟩ := done
  cases done
  exact ⟨rfl, by rw [dbGetDocs_eq mirrors.well got]⟩

/-- An INS with nothing new changes nothing; one with something new stores what its
new entries re-serialise to and sends a note. -/
theorem dbPeerOp_ins {s s' : Store} {docs : List Bytes} {reps : List DbRep}
    (mirrors : Mirrors X s) (done : dbPeerOp X s (.ins docs) = .ok (s', reps)) :
    (unknownDocs X s.myHashes docs = [] ∧ s' = s ∧ reps = []) ∨
      (unknownDocs X s.myHashes docs ≠ [] ∧ Mirrors X s' ∧ reps = [.new] ∧
        ∀ hash, hash ∈ hashes X s'.db ↔ hash ∈ hashes X s.db ∨
          ∃ d ∈ unknownDocs X s.myHashes docs,
            ∃ stored, Reserializes X d stored ∧ X.sha256 stored = hash) := by
  simp only [dbPeerOp, bind_eq_ok] at done
  obtain ⟨⟨⟩, -, done⟩ := done
  split at done
  · rename_i nothing
    cases done
    exact .inl ⟨nothing, rfl, rfl⟩
  · rename_i something
    simp only [bind_eq_ok] at done
    obtain ⟨db, put, done⟩ := done
    cases done
    exact .inr ⟨something, dbUpdateHashes_mirrors (dbPutDocs_wellStored mirrors.well put), rfl,
      dbPutDocs_hashes mirrors.well put⟩

theorem dbPeerOp_ins_data {s s' : Store} {docs : List Bytes} {reps : List DbRep}
    (mirrors : Mirrors X s) (done : dbPeerOp X s (.ins docs) = .ok (s', reps))
    {doc : Doc Bytes Bytes} (member : doc ∈ s'.db) :
    (∃ old ∈ s.db, old.data = doc.data) ∨ ∃ d ∈ docs, Reserializes X d doc.data := by
  simp only [dbPeerOp, bind_eq_ok] at done
  obtain ⟨⟨⟩, -, done⟩ := done
  split at done
  · cases done; exact .inl ⟨doc, member, rfl⟩
  · simp only [bind_eq_ok] at done
    obtain ⟨db, put, done⟩ := done
    cases done
    refine (dbPutDocs_data mirrors.well put member).imp_right ?_
    rintro ⟨d, new, stored⟩
    exact ⟨d, (List.mem_filter.mp new).1, stored⟩

/-- Why `db_peer_op` may end the process. -/
def PeerOpFaults (X : Platform) (f : Fault) : DbReq → Prop
  | .get _ wanted => X.ndebug = false ∧ ((f = .assertion .get ∧ wanted = []) ∨
      (f = .assertion .dbGetDocs ∧ ∃ h ∈ wanted, h.length ≠ 32))
  | .ins docs => (X.ndebug = false ∧ f = .assertion .ins ∧ docs = []) ∨
      (f = .json ∧ ∃ d ∈ docs, Document.deserialize X d = .error .json)

theorem PeerOpFaults.kind {f : Fault} {req : DbReq} (why : PeerOpFaults X f req) :
    f = .json ∨ ∃ site, f = .assertion site := by
  cases req with
  | get addr wanted =>
      rcases why with ⟨-, ⟨same, -⟩ | ⟨same, -⟩⟩
      · exact .inr ⟨_, same⟩
      · exact .inr ⟨_, same⟩
  | ins docs =>
      rcases why with ⟨-, same, -⟩ | ⟨same, -⟩
      · exact .inr ⟨_, same⟩
      · exact .inl same

theorem dbPeerOp_error {s : Store} {req : DbReq} {f : Fault}
    (failed : Piac.dbPeerOp X s req = .error f) : PeerOpFaults X f req := by
  cases req with
  | get addr wanted =>
      simp only [Piac.dbPeerOp, bind_eq_error] at failed
      rcases failed with first | ⟨⟨⟩, -, later | ⟨_, -, impossible⟩⟩
      · obtain ⟨⟨debug, empty⟩, rfl⟩ := Platform.assert_eq_error.mp first
        exact ⟨debug, .inl ⟨rfl, by simpa using empty⟩⟩
      · obtain ⟨debug, rfl, size⟩ := dbGetDocs_error later
        exact ⟨debug, .inr ⟨rfl, size⟩⟩
      · cases impossible
  | ins docs =>
      simp only [Piac.dbPeerOp, bind_eq_error] at failed
      rcases failed with first | ⟨⟨⟩, -, failed⟩
      · obtain ⟨⟨debug, empty⟩, rfl⟩ := Platform.assert_eq_error.mp first
        exact .inl ⟨debug, rfl, by simpa using empty⟩
      · split at failed
        · cases failed
        · simp only [bind_eq_error] at failed
          rcases failed with put | ⟨_, -, impossible⟩
          · obtain ⟨d, new, unreadable⟩ := dbPutDocs_error put
            cases Document.deserialize_error unreadable
            exact .inr ⟨rfl, d, (List.mem_filter.mp new).1, unreadable⟩
          · cases impossible

theorem Mirrors.dbPeerOp {s s' : Store} {req : DbReq} {reps : List DbRep}
    (mirrors : Mirrors X s) (done : dbPeerOp X s req = .ok (s', reps)) : Mirrors X s' := by
  cases req with
  | get addr wanted => exact (dbPeerOp_get mirrors done).1 ▸ mirrors
  | ins docs =>
      rcases dbPeerOp_ins mirrors done with ⟨-, rfl, -⟩ | ⟨-, mirrors', -⟩
      · exact mirrors
      · exact mirrors'

/-! ## Sequences of operations -/

/-- What the db thread is asked to do: a request of a client, with the peers and the
files there are at the time, or one of the p2p thread. -/
inductive DbOp where
  | client (myPeers : List Bytes) (files : Files) (msg : Bytes)
  | peer (req : DbReq)

variable (X) in
/-- The store after an operation that returns; a fault ends the daemon. -/
def dbStep (s : Store) : DbOp → Option Store
  | .client myPeers files msg => (dbClientOp X myPeers files s msg).toOption.map (·.1)
  | .peer req => (dbPeerOp X s req).toOption.map (·.1)

variable (X) in
/-- The operations `ops`, from a store on. -/
abbrev DbRun (s : Store) (ops : List DbOp) (s' : Store) : Prop :=
  Run (dbStep X) (fun _ _ => True) s ops s'

theorem toOption_map_eq_some {α β : Type} {x : Except Fault α} {f : α → β} {b : β} :
    x.toOption.map f = some b ↔ ∃ a, x = .ok a ∧ f a = b := by
  cases x <;> simp [Except.toOption]

theorem Mirrors.dbStep {s s' : Store} {op : DbOp} (mirrors : Mirrors X s)
    (stepped : dbStep X s op = some s') : Mirrors X s' := by
  cases op with
  | client myPeers files msg =>
      obtain ⟨⟨s₁, reply, notes⟩, done, rfl⟩ := toOption_map_eq_some.mp stepped
      rcases dbClientOp_effect done with ⟨rfl, -⟩ | ⟨cmd, done⟩
      · exact mirrors
      · exact mirrors.clientOp done
  | peer req =>
      obtain ⟨⟨s₁, reps⟩, done, rfl⟩ := toOption_map_eq_some.mp stepped
      exact mirrors.dbPeerOp done

theorem mirrors_of_run {s s' : Store} {ops : List DbOp} (run : DbRun X s ops s')
    (mirrors : Mirrors X s) : Mirrors X s' :=
  run.invariant mirrors fun _ _ _ mirrors _ stepped => mirrors.dbStep stepped

/-- **The store is content-addressed and mirrored.** After any sequence of client
requests and requests of the p2p thread on an empty database: a document carries
the term of its own hash and no other hash term; no two documents share a hash;
`my_hashes` is the set of the stored hashes and the counts agree; and
`db_get_docs` returns, in order, the stored entry for each hash in `my_hashes` and
nothing for the others. -/
theorem store_content_addressed {ops : List DbOp} {s : Store} (run : DbRun X ⟨[], []⟩ ops s) :
    (∀ doc ∈ s.db, ∀ t, IsHashTerm t →
      (t ∈ doc.terms ↔ t = hashTerm (X.sha256 doc.data))) ∧
    (hashes X s.db).Nodup ∧
    (∀ hash, hash ∈ s.myHashes ↔ ∃ doc ∈ s.db, X.sha256 doc.data = hash) ∧
    (s.myHashes.length = getDoccount s.db ∧
      (dbListHash X s.db true).length = getDoccount s.db ∧
      dbListHash X s.db true = (hashes X s.db).map hex) ∧
    ∀ wanted : List Bytes, (∀ hash ∈ wanted, hash.length = 32) →
      dbGetDocs X s.db wanted = .ok (wanted.filterMap (entryUnder X s.db)) ∧
      ∀ hash, (hash ∈ s.myHashes → ∃ doc ∈ s.db, X.sha256 doc.data = hash ∧
          entryUnder X s.db hash = some doc.data) ∧
        (hash ∉ s.myHashes → entryUnder X s.db hash = none) := by
  have mirrors := mirrors_of_run run .empty
  refine ⟨mirrors.well.keyed.carries, mirrors.well.hashes_nodup,
    fun hash => (mirrors.same hash).trans mem_hashes, ⟨mirrors.length_eq, ?_, ?_⟩,
    fun wanted sized => ⟨?_, fun hash => ⟨fun known => ?_, fun unknown => ?_⟩⟩⟩
  · simp [dbListHash, getDoccount]
  · simp [dbListHash, hashes]
  · obtain ⟨docs, got⟩ := dbGetDocs_ok (X := X) s.db (.inr sized)
    rw [got, dbGetDocs_eq mirrors.well got]
  · obtain ⟨doc, member, rfl⟩ := mem_hashes.mp ((mirrors.same hash).mp known)
    exact ⟨doc, member, rfl, (entryUnder_eq_some mirrors.well).mpr ⟨doc, member, rfl, rfl⟩⟩
  · rw [← Option.not_isSome_iff_eq_none, entryUnder_isSome, ← mirrors.same hash]
    exact unknown

/-- It applies after an ad of a client and one of a peer were stored and fetched. -/
theorem store_content_addressed_two : ∃ s, DbRun (reference true) ⟨[], []⟩
    [.client [] (fun _ => some (Reference.entry "1" ""))
       (bytes "db add json ad.json AUTH:" ++ Reference.alice),
     .peer (.ins [Reference.aliceEntry "2"]),
     .peer (.get (bytes "localhost:65091") (Reference.digests.map Prod.snd)),
     .client [] (fun _ => none) (bytes "db list AUTH:" ++ Reference.alice)] s ∧
    s.myHashes.length = 2 ∧ (hashes (reference true) s.db).Nodup :=
  ⟨_, .computed (by decide +kernel) fun _ _ _ => trivial, by decide +kernel,
    (store_content_addressed (.computed (by decide +kernel) fun _ _ _ => trivial)).2.1⟩

end Piac
