/-
# Network.Authors — an author's rights travel with the ad

Who may remove an ad is written in the ad: `db_rm_docs` reads the author from the stored entry
and compares it with the user of the request. Entries are neither forged nor altered on their way
(`Network.Provenance`), so at every daemon an ad comes to, it can be removed by who added it,
wherever that was, and by nobody else.
-/
import Piac.Network.Convergence
import Piac.Network.Provenance
import Piac.Store.Board

namespace Piac

set_option autoImplicit false

open Piac.Theory.CppString Piac.Theory.TermStore Piac.Theory.Transition Piac.Theory.Board

universe u

variable {X : Platform} {ι : Type u}

/-! ## One removal -/

section Removal

variable {s s' : Store} {user : Bytes} {toDelete : List Bytes} {notes : List DbRep}

/-- A document is stored if its entry is. -/
theorem mem_of_entry (mirrors : Mirrors X s) (done : clientOp X s (.rm user toDelete) = .ok (s', notes))
    {doc : Doc Bytes Bytes} (stored : doc ∈ s.db) (left : doc.data ∈ entries s'.db) : doc ∈ s'.db := by
  obtain ⟨doc', inDb, same⟩ := left
  have old := (clientOp_rm mirrors done).2.2 doc' inDb
  rwa [← mirrors.well.unique old stored (congrArg X.sha256 same)]

/-- Nobody takes out what is somebody else's. -/
theorem rm_keeps_foreign (mirrors : Mirrors X s)
    (done : clientOp X s (.rm user toDelete) = .ok (s', notes)) {doc : Doc Bytes Bytes}
    (stored : doc ∈ s.db) (foreign : user ≠ authorOf X doc.data) : doc ∈ s'.db := by
  exact mem_of_entry mirrors done stored (entry_kept mirrors done ⟨doc, stored, rfl⟩ foreign)

/-- Who asks for one ad of his own takes out that one and no other. -/
theorem rm_takes_own (mirrors : Mirrors X s) {doc : Doc Bytes Bytes} (stored : doc ∈ s.db)
    (own : user = authorOf X doc.data)
    (done : clientOp X s (.rm user [keyOf X doc.data]) = .ok (s', notes)) (other : Doc Bytes Bytes) :
    other ∈ s'.db ↔ other ∈ s.db ∧ other ≠ doc := by
  have only : ∀ e ∈ s.db, keyOf X e.data ∈ [keyOf X doc.data] → e = doc := fun e inDb named =>
    mirrors.well.unique inDb stored (hex_injective (List.mem_singleton.mp named))
  have mine : Own (keyOf X) (authorOf X) user {k | k ∈ [keyOf X doc.data]} (entries s.db) := by
    rintro _ ⟨e, inDb, rfl⟩ named
    rw [only e inDb named, own]
  constructor
  · intro left
    have old := (clientOp_rm mirrors done).2.2 other left
    refine ⟨old, ?_⟩
    rintro rfl
    exact ((entry_taken mirrors done mine _).mp ⟨other, left, rfl⟩).2 (List.mem_singleton_self _)
  · rintro ⟨old, apart⟩
    exact mem_of_entry mirrors done old ((entry_taken mirrors done mine _).mpr
      ⟨⟨other, old, rfl⟩, fun named => apart (only other old named)⟩)

end Removal

/-! ## In the network -/

variable [DecidableEq ι]

/-- An ad that was not there at the start was added by who is its author now. -/
theorem added_of_run {C : Config X ι} (reread : ∀ x, X.reread x = x) {ls : List (Label X ι)}
    {net : Network ι} (run : NetRun C (fun _ _ => True) ls net) {i : ι} {doc : Doc Bytes Bytes}
    (member : doc ∈ (net.node i).store.db) : (∃ j, ∃ old ∈ C.db j, old.data = doc.data) ∨
      ∃ n author docs, .act n (.client (.add author docs)) ∈ ls ∧
        (∃ ad ∈ docs, doc.data = entryOf X author ad) ∧ authorOf X doc.data = cstr author := by
  refine ((origin_of_run reread run).stored i doc member).imp_right ?_
  rintro ⟨before, after, n, author, docs, -, -, rfl, -, -, -, ad, inDocs, same, ad', read, is⟩
  refine ⟨n, author, docs, by simp, ⟨ad, inDocs, same⟩, ?_⟩
  rw [authorOf, read]
  exact is

/-- Of two daemons at which nothing else is added, both have only the ad of `alice`. -/
theorem addFirst_only {ls : List (Label (reference true) (Fin 2))} {net : Network (Fin 2)}
    (run : NetRun (pair true) AddsOnly (addAt 0 :: ls) net)
    (handling : ∀ l ∈ ls, ∀ i cmd, l ≠ .act i (.client cmd)) {i : Fin 2} {doc : Doc Bytes Bytes}
    (member : doc ∈ (net.node i).store.db) :
    doc.data = entryOf (reference true) Reference.alice (Reference.ad 1) ∧
      authorOf (reference true) doc.data = Reference.alice := by
  rcases added_of_run (fun _ => rfl) (run.weaken fun _ _ _ => trivial) member with
    ⟨_, _, impossible, -⟩ | ⟨n, author, docs, label, ⟨ad, inDocs, text⟩, is⟩
  · cases impossible
  · rcases List.mem_cons.mp label with first | later
    · obtain ⟨-, ⟨⟩⟩ := Label.act.inj first
      exact ⟨List.mem_singleton.mp inDocs ▸ text, is⟩
    · exact absurd rfl (handling _ later n _)

/-- **An author's rights travel with the ad.** In every state of every run, restarts included, and
at every daemon: an ad that was not there at the start was added by somebody, at this daemon or
another, and is stored there with the text of that name up to its first zero byte; under any other
name than the stored one no `db rm` there takes it out, whatever else it asks for, and under the
stored name the `db rm` of its hash takes out this ad and nothing else. -/
theorem author_rights_travel {C : Config X ι} (reread : ∀ x, X.reread x = x)
    {ls : List (Label X ι)} {net : Network ι} (run : NetRun C (fun _ _ => True) ls net) (i : ι)
    {doc : Doc Bytes Bytes} (member : doc ∈ (net.node i).store.db)
    (new : ∀ j, ∀ old ∈ C.db j, old.data ≠ doc.data) :
    ∃ n author docs, .act n (.client (.add author docs)) ∈ ls ∧
      (∃ ad ∈ docs, doc.data = entryOf X author ad) ∧
      (∀ user toDelete s' notes, user ≠ cstr author →
        clientOp X (net.node i).store (.rm user toDelete) = .ok (s', notes) → doc ∈ s'.db) ∧
      ∀ s' notes, clientOp X (net.node i).store (.rm (cstr author) [keyOf X doc.data]) = .ok (s', notes) →
        ∀ other, other ∈ s'.db ↔ other ∈ (net.node i).store.db ∧ other ≠ doc := by
  have mirrors := mirrored_of_run run i
  obtain ⟨j, old, inDb, same⟩ | ⟨n, author, docs, added, text, is⟩ := added_of_run reread run member
  · exact absurd same (new j old inDb)
  refine ⟨n, author, docs, added, text, fun user toDelete s' notes foreign done => ?_,
    fun s' notes done => rm_takes_own mirrors member is.symm done⟩
  exact rm_keeps_foreign mirrors done member (by rwa [is])

/-- What `alice` added at one daemon she removes at the other. -/
theorem author_rights_travel_pair : ∃ (ls : List (Label (reference true) (Fin 2))) (net : Network (Fin 2)),
    NetRun (pair true) (fun _ _ => True) ls net ∧ ∃ doc ∈ (net.node 1).store.db,
      ∃ s', clientOp (reference true) (net.node 1).store
          (.rm Reference.alice [keyOf (reference true) doc.data]) = .ok (s', [.new]) ∧ doc ∉ s'.db := by
  let ls : List (Label (reference true) (Fin 2)) :=
    introduction ++ [.act 0 (.client (.add Reference.alice [Reference.ad 1]))] ++ transfer 0 1
  let net := (exec (step (pair true)) (pair true).init ls).get (by decide +kernel)
  have run : NetRun (pair true) (fun _ _ => True) ls net := .computed _ fun _ _ _ => trivial
  have received : (net.node 1).store.db ≠ [] := by decide +kernel
  obtain ⟨doc, member⟩ := List.exists_mem_of_ne_nil _ received
  obtain ⟨n, author, docs, added, -, -, takes⟩ := author_rights_travel (fun _ => rfl) run 1 member
    fun _ _ impossible => absurd impossible List.not_mem_nil
  have byAlice : author = Reference.alice := by
    simp only [ls, introduction, transfer, round, answer, answerDb, List.mem_append, List.mem_cons,
      List.not_mem_nil, Label.act.injEq, Event.client.injEq, ClientCmd.add.injEq, reduceCtorEq,
      and_false, or_false, false_or] at added
    exact added.2.1
  have name : cstr Reference.alice = Reference.alice := by decide
  rw [byAlice, name] at takes
  have mirrors := mirrored_of_run run 1
  cases removed : clientOp (reference true) (net.node 1).store
      (.rm Reference.alice [keyOf (reference true) doc.data]) with
  | error f => cases (clientOp_error mirrors removed).1
  | ok result =>
      obtain ⟨s', notes⟩ := result
      cases clientOp_notes removed
      exact ⟨ls, net, run, doc, member, s', removed, fun left => ((takes s' _ removed doc).mp left).2 rfl⟩

end Piac
