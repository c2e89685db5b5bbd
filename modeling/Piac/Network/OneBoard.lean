/-
# Network.OneBoard — a client may ask any daemon

A client speaks to one daemon. When the network has come to a rest, it does not matter to
which: two daemons of one component have the same hashes (`Network.Convergence`), so, unless
two ads share a digest, their databases are one board (`Store.Board`), and to a question about
the board both give the same answer, but for the order of what they list.
-/
import Piac.Network.Authors

namespace Piac

set_option autoImplicit false

open Piac.Theory.CppString Piac.Theory.Transition Piac.Theory.Board

universe u

variable {X : Platform} {ι : Type u}

/-! ## One daemon -/

variable (X) in
/-- The store replies to the request, and this is the answer it gives. -/
def Answers (myPeers : List Bytes) (files : Files) (s : Store) (msg : Bytes)
    (answer : Answer Bytes Bytes) : Prop :=
  ∃ text, dbClientOp X myPeers files s msg = .ok (s, text, []) ∧ said X answer = some text

/-- A question has an answer that is said. -/
theorem said_question {ask : Ask Bytes Bytes Bytes} (question : ask.Question)
    {before after : Set Bytes} {answer : Answer Bytes Bytes}
    (serves : Serves (keyOf X) (authorOf X) ask before answer after) :
    ∃ text, said X answer = some text := by
  cases serves with
  | keys _ _ => exact ⟨_, rfl⟩
  | items _ _ => exact ⟨_, rfl⟩
  | count _ => exact ⟨_, rfl⟩
  | owners _ => exact ⟨_, rfl⟩
  | _ => exact question.elim

/-- A listing of well-stored documents ends. -/
theorem dbList_ok {db : Database} (well : WellStored X db) (q : Bytes) :
    ∃ reply, dbList X db q = .ok reply := by
  unfold dbList
  rw [dbListDoc_eq well, dbListNumuser_eq well]
  dsimp only
  repeat (split; · exact ⟨_, rfl⟩)
  exact ⟨_, rfl⟩

/-- **A question is answered from the board.** -/
theorem answers_question {s : Store} (well : WellStored X s.db) (myPeers : List Bytes)
    (files : Files) {msg q : Bytes} (starts : ¬ StartsAuth msg)
    (asks : Request.read (commandOf msg) = .list q) (question : (listAsked (trim q)).Question) :
    ∃ answer, Answers X myPeers files s msg answer ∧
      Serves (keyOf X) (authorOf X) (listAsked (trim q)) (entries s.db) answer (entries s.db) := by
  obtain ⟨reply, listed⟩ := dbList_ok well q
  obtain ⟨answer, serves, tells⟩ := dbList_serves well listed
  obtain ⟨text, spoken⟩ := said_question question serves
  refine ⟨answer, ⟨reply, ?_, by rw [tells text spoken, spoken]⟩, serves⟩
  rw [dbClientOp_eq, if_neg starts, asks]
  simp only [dbClientBranch, bind_eq_ok]
  exact ⟨reply, listed, rfl⟩

/-! ## Two daemons -/

/-- Two databases with the same hashes are one board. -/
theorem entries_eq_of_hashes {db db' : Database} (distinct : Distinct X (entries db ∪ entries db'))
    (same : ∀ h, h ∈ hashes X db ↔ h ∈ hashes X db') : entries db = entries db' := by
  refine Set.Subset.antisymm (fun e stored => ?_) fun e stored => ?_
  · exact mem_entries_of_hash distinct Set.subset_union_right (.inl stored)
      ((same _).mp (hash_mem_of_entry stored))
  · exact mem_entries_of_hash distinct Set.subset_union_left (.inr stored)
      ((same _).mpr (hash_mem_of_entry stored))

variable [DecidableEq ι]

/-- **At rest, all daemons answer alike.** In a Release build: when clients have only added ads
that peers accept as they are, and no handler has anything left to do, two daemons that the
command lines join answer every request about the listing alike, but for the order. No two of the
ads they store may share a digest. -/
theorem answers_alike {C : Config X ι} (release : X.ndebug = true)
    (canonical : ∀ i, ∀ doc ∈ C.db i, Canonical X doc.data) {ls : List (Label X ι)}
    {net : Network ι} (run : NetRun C AddsOnly ls net) (rest : Stuck (step C) Handling net)
    {i j : ι} (joined : Joined C i j)
    (distinct : Distinct X (entries (net.node i).store.db ∪ entries (net.node j).store.db))
    (files files' : Files) {msg q : Bytes} (starts : ¬ StartsAuth msg)
    (asks : Request.read (commandOf msg) = .list q) (question : (listAsked (trim q)).Question) :
    ∃ answer answer', Answers X (net.node i).p2p.myPeers files (net.node i).store msg answer ∧
      Answers X (net.node j).p2p.myPeers files' (net.node j).store msg answer' ∧
      answer.Alike answer' := by
  have converged := (stuck_quiescent rest (lowered_of_run run)).converged release canonical run
  have chain := chain_init_iff.mpr joined
  have same : ∀ h, h ∈ hashes X (net.node i).store.db ↔ h ∈ hashes X (net.node j).store.db := fun h => by
    rw [converged.union i h, converged.union j h]
    exact exists_congr fun k => and_congr_left fun _ => ⟨chain.symm.trans, chain.trans⟩
  obtain ⟨answer, said, serves⟩ := answers_question (mirrored_of_run run i).well
    (net.node i).p2p.myPeers files starts asks question
  obtain ⟨answer', said', serves'⟩ := answers_question (mirrored_of_run run j).well
    (net.node j).p2p.myPeers files' starts asks question
  rw [← entries_eq_of_hashes distinct same] at serves'
  exact ⟨answer, answer', said, said', serves.alike question serves'⟩

/-- After an ad of `alice` has come to the other of two daemons. -/
theorem answers_alike_pair : ∃ ls net, NetRun (pair true) AddsOnly ls net ∧
    Stuck (step (pair true)) Handling net ∧
    ∃ answer answer', Answers (reference true) (net.node 0).p2p.myPeers (fun _ => none)
        (net.node 0).store (bytes "db list numdoc") answer ∧
      Answers (reference true) (net.node 1).p2p.myPeers (fun _ => none) (net.node 1).store
        (bytes "db list numdoc") answer' ∧ answer.Alike answer' := by
  obtain ⟨ls, net, run, rest, handling, -⟩ := addFirst_rests
  have joined : Joined (pair true) 0 1 := Joined.symm (.rel 1 0 (by decide +kernel))
  have only : ∀ i, entries (net.node i).store.db ⊆
      {entryOf (reference true) Reference.alice (Reference.ad 1)} := by
    rintro i _ ⟨doc, member, rfl⟩
    exact (addFirst_only run handling member).1
  have question : (listAsked (trim (bytes "numdoc"))).Question := by
    rw [listAsked, if_neg (by decide), if_pos (by decide)]
    trivial
  refine ⟨_, net, run, rest, answers_alike (q := bytes "numdoc") rfl pair_canonical run rest joined
    (Set.Subsingleton.injOn ?_ _) _ _ (by decide +kernel) (by decide +kernel) question⟩
  exact Set.subsingleton_singleton.anti (Set.union_subset (only 0) (only 1))

end Piac
