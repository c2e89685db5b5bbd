/-
# Network.Termination — the sync protocol comes to rest

The handlers form a cycle HASH → REQ → GET → PUT → DOC → INS → NEW → HASH, and a PEER
may lead to more of both kinds. Going round needs news: an address somebody lacked, or
an entry somebody lacked and now has. So the rank of a network is, first, what is
missing (`missing`: addresses and hashes out of a finite stock, summed over the
daemons), and below that the work that is still to do without any news (`work`,
`PeerMsg.cost`), where each message weighs more than everything that can come of it.

The one way round without news is an INS whose entries are all refused, or stored as
something else: it stores nothing that was asked for and sends a note all the same.
`sync_terminates` is about every run that does not take it (`StoresNews`);
`canonical_terminates` says for which ads no run does.
-/
import Piac.Network.Sync
import Mathlib.Data.Set.Finite.Lattice
import Mathlib.Data.Finset.Union

namespace Piac

set_option autoImplicit false

open Piac.Theory.CppString Piac.Theory.Transition Piac.Theory.MessagePassing
  Piac.Theory.TermStore

universe u

variable {X : Platform} {ι : Type u}

/-! ## What is missing -/

/-- How much of a finite stock is not on the list. -/
def lacking (stock : Finset Bytes) (has : List Bytes) : Nat :=
  (stock \ has.toFinset).card

theorem lacking_lt {stock : Finset Bytes} {has has' : List Bytes} {a : Bytes}
    (grows : ∀ a ∈ has, a ∈ has') (inStock : a ∈ stock) (before : a ∉ has) (after : a ∈ has') :
    lacking stock has' < lacking stock has := by
  refine Finset.card_lt_card (Finset.ssubset_iff_of_subset ?_ |>.mpr ⟨a, ?_, ?_⟩)
  · exact Finset.sdiff_subset_sdiff (Finset.Subset.refl _) fun b member =>
      List.mem_toFinset.mpr (grows b (List.mem_toFinset.mp member))
  · simp [inStock, before]
  · simp [after]

/-- What a daemon lacks of the stocks of addresses and of hashes. -/
def missing (addrs stock : Finset Bytes) (d : Daemon) : Nat :=
  lacking addrs d.p2p.myPeers + lacking stock d.store.myHashes

theorem missing_congr {addrs stock : Finset Bytes} {d d' : Daemon}
    (peers : d'.p2p.myPeers = d.p2p.myPeers) (store : d'.store = d.store) :
    missing addrs stock d' = missing addrs stock d := by
  rw [missing, missing, peers, store]

/-! ## What is still to do -/

def PeerMsg.cost : PeerMsg → Nat
  | .peer _ => 5
  | .doc _ => 6
  | .req _ _ => 16
  | .hash _ _ => 22

def DbReq.cost : DbReq → Nat
  | .get _ _ => 11
  | .ins _ => 1

/-- A note costs a broadcast to the peers. -/
def DbRep.cost (peers : Nat) : DbRep → Nat
  | .put _ _ => 10
  | .new => 22 * peers + 4

/-- The way to the poll. -/
def Phase.cost : Phase → Nat
  | .poll => 0
  | .sendDbRequests => 1
  | .bcastHashes => 2
  | .bcastPeers => 3
  | .answered => 4

def Event.cost : Event X → Nat
  | .answerP2p msg => msg.cost
  | _ => 0

/-- The work a running daemon still has, without news. -/
def work (d : Daemon) : Nat :=
  if d.fault = none then
    1 + d.phase.cost +
      (if d.p2p.toBcastPeers then 5 * d.p2p.myPeers.length else 0) +
      (if d.p2p.toBcastHashes then 22 * d.p2p.myPeers.length else 0) +
      17 * d.p2p.dbRequests.length +
      (d.toDb.map DbReq.cost).sum +
      (d.toP2p.map (DbRep.cost d.p2p.myPeers.length)).sum
  else 0

theorem work_running {d : Daemon} (running : d.fault = none) : work d =
    1 + d.phase.cost +
      (if d.p2p.toBcastPeers then 5 * d.p2p.myPeers.length else 0) +
      (if d.p2p.toBcastHashes then 22 * d.p2p.myPeers.length else 0) +
      17 * d.p2p.dbRequests.length +
      (d.toDb.map DbReq.cost).sum +
      (d.toP2p.map (DbRep.cost d.p2p.myPeers.length)).sum := by
  rw [work, if_pos running]

theorem Moves.cost_lt {d : Daemon} {event : Event X} {phase : Phase} (moves : Moves d event phase) :
    phase.cost < d.phase.cost := by
  cases moves with
  | bcastPeers here _ => rw [here]; decide
  | bcastHashes here _ => rw [here]; decide
  | sendDbRequests here _ => rw [here]; decide
  | pass here => rw [here]; decide

theorem sum_map_const {α : Type} (l : List α) (c : Nat) : (l.map fun _ => c).sum = c * l.length := by
  induction l with
  | nil => rfl
  | cons a rest ih => rw [List.map_cons, List.sum_cons, ih, List.length_cons, Nat.mul_succ, Nat.add_comm]

/-- An INS that is answered with something unknown has an unknown entry that the database
accepts and stores as it is. -/
def StoresNewsAt (X : Platform) (d : Daemon) : Prop :=
  ∀ docs rest, d.toDb = .ins docs :: rest → unknownDocs X d.store.myHashes docs ≠ [] →
    ∃ e ∈ unknownDocs X d.store.myHashes docs, Canonical X e

/-- **One event brings news or leaves less to do.** -/
theorem Acts.spends {p2pPort : Nat} {d d' : Daemon} {event : Event X} {sends : Sends}
    (acts : Acts p2pPort d event d' sends) (mirrors : Mirrors X d.store) (running : d.fault = none)
    (noClient : ∀ cmd, event ≠ .client cmd) {addrs stock : Finset Bytes}
    (named : ∀ as, event = .answerP2p (.peer as) → ∀ a ∈ as, a ∈ addrs)
    (stocked : ∀ docs, .ins docs ∈ d.toDb → ∀ e ∈ docs, Canonical X e → X.sha256 e ∈ stock)
    (stores : event = .dbPeerOp → StoresNewsAt X d) :
    missing addrs stock d' < missing addrs stock d ∨
      (missing addrs stock d' = missing addrs stock d ∧
        work d' + (sends.map fun s => s.2.cost).sum < work d + event.cost) := by
  have before := work_running running
  cases acts with
  | move moves =>
      refine .inr ⟨rfl, ?_⟩
      have lower := moves.cost_lt
      rw [before, work_running (by exact running)]
      simp only [List.map_nil, List.sum_nil]
      omega
  | bcastPeers here up =>
      refine .inr ⟨rfl, ?_⟩
      rw [before, work_running (by exact running), List.map_map]
      have sent : (d.p2p.myPeers.map ((fun s : Bytes × PeerMsg => s.2.cost) ∘ fun addr =>
          (addr, PeerMsg.peer (localhost p2pPort :: d.p2p.myPeers)))).sum = 5 * d.p2p.myPeers.length :=
        sum_map_const d.p2p.myPeers 5
      simp only [sent, here, up, Phase.cost, if_true, Bool.false_eq_true, if_false]
      omega
  | bcastHashes here up =>
      refine .inr ⟨rfl, ?_⟩
      rw [before, work_running (by exact running), List.map_map]
      have sent : (d.p2p.myPeers.map ((fun s : Bytes × PeerMsg => s.2.cost) ∘ fun addr =>
          (addr, PeerMsg.hash (localhost p2pPort) d.store.myHashes))).sum =
          22 * d.p2p.myPeers.length :=
        sum_map_const d.p2p.myPeers 22
      simp only [sent, here, up, Phase.cost, if_true, Bool.false_eq_true, if_false]
      omega
  | sendDbRequests here _ _ =>
      refine .inr ⟨rfl, ?_⟩
      rw [before, work_running (by exact running), List.map_map]
      have sent : (d.p2p.dbRequests.map ((fun s : Bytes × PeerMsg => s.2.cost) ∘ fun r =>
          (r.1, PeerMsg.req (localhost p2pPort) r.2))).sum = 16 * d.p2p.dbRequests.length :=
        sum_map_const d.p2p.dbRequests 16
      simp only [sent, here, Phase.cost, List.length_nil]
      omega
  | recvPeer here learned =>
      rename_i as p2p
      rcases learned.flags with same | ⟨-, -, a, member, fresh, known⟩
      · subst same
        refine .inr ⟨rfl, ?_⟩
        rw [before, work_running (by exact running)]
        simp only [here, Phase.cost, Event.cost, PeerMsg.cost, List.map_nil, List.sum_nil]
        omega
      · left
        have fewer : lacking addrs p2p.myPeers < lacking addrs d.p2p.myPeers :=
          lacking_lt (fun b old => (learned.mem b).mpr (.inl old)) (named as rfl a member) fresh known
        exact Nat.add_lt_add_right fewer _
  | recvHash here noted =>
      refine .inr ⟨missing_congr noted.peers rfl, ?_⟩
      have length := noted.length
      rw [before, work_running (by exact running)]
      simp only [here, Phase.cost, Event.cost, PeerMsg.cost, noted.peers, noted.peersFlag,
        noted.hashesFlag, List.map_nil, List.sum_nil]
      omega
  | recvReq here _ =>
      refine .inr ⟨rfl, ?_⟩
      rw [before, work_running (by exact running)]
      simp only [here, Phase.cost, Event.cost, PeerMsg.cost, DbReq.cost, List.map_append,
        List.sum_append, List.map_cons, List.map_nil, List.sum_cons, List.sum_nil]
      omega
  | recvDoc here _ =>
      refine .inr ⟨rfl, ?_⟩
      rw [before, work_running (by exact running)]
      simp only [here, Phase.cost, Event.cost, PeerMsg.cost, DbReq.cost, List.map_append,
        List.sum_append, List.map_cons, List.map_nil, List.sum_cons, List.sum_nil]
      omega
  | answerPut here queue _ _ =>
      refine .inr ⟨rfl, ?_⟩
      rw [before, work_running (by exact running)]
      simp only [queue, Phase.cost, PeerMsg.cost, DbRep.cost, List.map_cons, List.map_nil,
        List.sum_cons, List.sum_nil]
      rcases here with here | here <;> simp only [here] <;> omega
  | answerNew here queue =>
      refine .inr ⟨rfl, ?_⟩
      rw [before, work_running (by exact running)]
      simp only [queue, Phase.cost, DbRep.cost, List.map_cons, List.map_nil, List.sum_cons,
        List.sum_nil, if_true]
      rcases here with here | here <;> simp only [here] <;> split <;> omega
  | get queue _ =>
      refine .inr ⟨rfl, ?_⟩
      rw [before, work_running (by exact running)]
      simp only [queue, DbReq.cost, DbRep.cost, List.map_append, List.sum_append, List.map_cons,
        List.map_nil, List.sum_cons, List.sum_nil]
      omega
  | insKnown queue _ =>
      refine .inr ⟨rfl, ?_⟩
      rw [before, work_running (by exact running)]
      simp only [queue, DbReq.cost, List.map_cons, List.map_nil, List.sum_cons, List.sum_nil]
      omega
  | insNew queue new done =>
      rename_i docs rest store
      left
      obtain ⟨e, unknown, canonical⟩ := stores rfl docs rest queue new
      obtain ⟨inDocs, lacks⟩ := List.mem_filter.mp unknown
      have mirrors' := mirrors.dbPeerOp done
      rcases dbPeerOp_ins mirrors done with ⟨_, _, impossible⟩ | ⟨-, -, -, stored⟩
      · cases impossible
      have fewer : lacking stock store.myHashes < lacking stock d.store.myHashes := by
        refine lacking_lt (a := X.sha256 e) (fun h known => (mirrors'.same h).mpr ((stored h).mpr
          (.inl ((mirrors.same h).mp known)))) ?_ (by simpa using lacks)
          ((mirrors'.same _).mpr ((stored _).mpr (.inr ⟨e, unknown, e, canonical, rfl⟩)))
        exact stocked docs (by rw [queue]; exact List.mem_cons_self) e inDocs canonical
      exact Nat.add_lt_add_left fewer _
  | client _ => exact absurd rfl (noClient _)
  | fault _ failed p2p store _ _ =>
      refine .inr ⟨missing_congr (by rw [p2p]) store, ?_⟩
      rw [before, work, if_neg (by rw [failed]; exact nofun)]
      simp only [List.map_nil, List.sum_nil]
      omega

/-! ## Finite stocks -/

/-- The last thing an entry may become by being stored again and again: if it is
canonical, its hash is in stock. -/
def Stocked (X : Platform) (stock : Finset Bytes) (e : Bytes) : Prop :=
  ∀ last, Relation.ReflTransGen (Reserializes X) e last → Canonical X last → X.sha256 last ∈ stock

/-- Every entry and every address around is covered by the stocks. -/
structure InStock (C : Config X ι) (addrs stock : Finset Bytes) (net : Network ι) : Prop where
  own : ∀ i, C.address i ∈ addrs
  addresses : Addressed (· ∈ addrs) net
  entries : Carried (fun _ e => Stocked X stock e) net

/-- An entry becomes one canonical entry at most. -/
theorem canonical_unique {e c c' : Bytes} (path : Relation.ReflTransGen (Reserializes X) e c)
    (canonical : Canonical X c) (path' : Relation.ReflTransGen (Reserializes X) e c')
    (canonical' : Canonical X c') : c = c' := by
  have stays : ∀ {a b}, Canonical X a → Relation.ReflTransGen (Reserializes X) a b → b = a := by
    intro a b fixed path
    induction path with
    | refl => rfl
    | tail _ last ih => subst ih; exact last.unique fixed
  have rightUnique : Relator.RightUnique (Reserializes X) := fun _ _ _ one other => one.unique other
  rcases Relation.ReflTransGen.total_of_right_unique rightUnique path path' with further | further
  · exact (stays canonical further).symm
  · exact stays canonical' further

def PeerMsg.docs : PeerMsg → List Bytes
  | .doc docs => docs
  | _ => []

def PeerMsg.addrs : PeerMsg → List Bytes
  | .peer addrs => addrs
  | _ => []

def DbReq.docs : DbReq → List Bytes
  | .ins docs => docs
  | .get _ _ => []

def DbRep.docs : DbRep → List Bytes
  | .put _ docs => docs
  | .new => []

section Finite

variable [Fintype ι]

/-- The entries around. -/
def entriesOf (net : Network ι) : Finset Bytes :=
  (Finset.univ.biUnion fun i => ((net.node i).store.db.map Doc.data ++
    (net.node i).toP2p.flatMap DbRep.docs ++ (net.node i).toDb.flatMap DbReq.docs).toFinset) ∪
  Finset.univ.biUnion fun i => Finset.univ.biUnion fun j =>
    ((net.link i j).flatMap PeerMsg.docs).toFinset

/-- The addresses around. -/
def addressesOf (C : Config X ι) (net : Network ι) : Finset Bytes :=
  (Finset.univ.biUnion fun i => (C.address i :: (net.node i).p2p.myPeers).toFinset) ∪
  Finset.univ.biUnion fun i => Finset.univ.biUnion fun j =>
    ((net.link i j).flatMap PeerMsg.addrs).toFinset

theorem carried_entriesOf (net : Network ι) : Carried (fun _ e => e ∈ entriesOf net) net where
  stored i doc member := by
    refine Finset.mem_union_left _ (Finset.mem_biUnion.mpr ⟨i, Finset.mem_univ i, ?_⟩)
    simp only [List.mem_toFinset, List.mem_append, List.mem_map]
    exact .inl (.inl ⟨doc, member, rfl⟩)
  puts i addr docs member e inDocs := by
    refine Finset.mem_union_left _ (Finset.mem_biUnion.mpr ⟨i, Finset.mem_univ i, ?_⟩)
    simp only [List.mem_toFinset, List.mem_append, List.mem_flatMap]
    exact .inl (.inr ⟨_, member, inDocs⟩)
  docs i j docs member e inDocs := by
    refine Finset.mem_union_right _ (Finset.mem_biUnion.mpr ⟨i, Finset.mem_univ i,
      Finset.mem_biUnion.mpr ⟨j, Finset.mem_univ j, ?_⟩⟩)
    simp only [List.mem_toFinset, List.mem_flatMap]
    exact ⟨_, member, inDocs⟩
  ins i docs member e inDocs := by
    refine Finset.mem_union_left _ (Finset.mem_biUnion.mpr ⟨i, Finset.mem_univ i, ?_⟩)
    simp only [List.mem_toFinset, List.mem_append, List.mem_flatMap]
    exact .inr ⟨_, member, inDocs⟩

theorem exists_inStock (C : Config X ι) (net : Network ι) :
    ∃ addrs stock, InStock C addrs stock net := by
  have finite : (⋃ e ∈ entriesOf net, {h | ∃ c, Relation.ReflTransGen (Reserializes X) e c ∧
      Canonical X c ∧ X.sha256 c = h}).Finite := by
    refine (entriesOf net).finite_toSet.biUnion fun e _ => Set.Subsingleton.finite ?_
    rintro _ ⟨c, path, canonical, rfl⟩ _ ⟨c', path', canonical', rfl⟩
    rw [canonical_unique path canonical path' canonical']
  refine ⟨addressesOf C net, finite.toFinset, fun i => ?_, ⟨fun i a known => ?_,
    fun i j as member a inAs => ?_⟩, (carried_entriesOf net).mono fun _ e member last path canonical => ?_⟩
  · exact Finset.mem_union_left _ (Finset.mem_biUnion.mpr ⟨i, Finset.mem_univ i, by simp⟩)
  · exact Finset.mem_union_left _ (Finset.mem_biUnion.mpr ⟨i, Finset.mem_univ i, by simp [known]⟩)
  · refine Finset.mem_union_right _ (Finset.mem_biUnion.mpr ⟨i, Finset.mem_univ i,
      Finset.mem_biUnion.mpr ⟨j, Finset.mem_univ j, ?_⟩⟩)
    simp only [List.mem_toFinset, List.mem_flatMap]
    exact ⟨_, member, inAs⟩
  · rw [Set.Finite.mem_toFinset]
    exact Set.mem_biUnion member ⟨last, path, canonical, rfl⟩

end Finite

/-! ## The rank of a network -/

/-- An INS that is handled with something unknown has an unknown entry that the database
accepts and stores as it is. -/
def StoresNews (net : Network ι) (l : Label X ι) : Prop :=
  ∀ i, l = .act i .dbPeerOp → StoresNewsAt X (net.node i)

variable [DecidableEq ι]

theorem Took.inStock {C : Config X ι} {net net' : Network ι} {l : Label X ι} {n : ι}
    {event : Event X} {input : Option (ι × PeerMsg)} {d : Daemon} {sends : Sends}
    (took : Took C net net' l n event input d sends) (mirrors : Mirrors X (net.node n).store)
    (noClient : ∀ cmd, event ≠ .client cmd) {addrs stock : Finset Bytes}
    (inStock : InStock C addrs stock net) : InStock C addrs stock net' := by
  refine ⟨inStock.own, took.addressed (inStock.own n) inStock.addresses, ?_⟩
  refine took.carried mirrors inStock.entries (fun _ _ stocked _ => stocked) ?_ ?_
  · exact fun e stored stocked again last path => stocked last (.head again path)
  · rintro author docs rfl
    exact absurd rfl (noClient _)

variable [Fintype ι]

/-- What is missing, and below that the work to do. -/
def rank (addrs stock : Finset Bytes) (net : Network ι) : Nat × Nat :=
  (∑ i, missing addrs stock (net.node i), ∑ i, work (net.node i) + load PeerMsg.cost net)

theorem Took.rank_lt {C : Config X ι} {net net' : Network ι} {l : Label X ι} {n : ι}
    {event : Event X} {input : Option (ι × PeerMsg)} {d : Daemon} {sends : Sends}
    (took : Took C net net' l n event input d sends) (mirrors : Mirrors X (net.node n).store)
    (noClient : ∀ cmd, event ≠ .client cmd) (stores : event = .dbPeerOp → StoresNewsAt X (net.node n))
    {addrs stock : Finset Bytes} (inStock : InStock C addrs stock net) :
    Prod.Lex (· < ·) (· < ·) (rank addrs stock net') (rank addrs stock net) := by
  have spends := @Acts.spends _ _ _ _ _ _ took.acts mirrors took.running noClient addrs stock
    (by
      rintro as rfl a inAs
      obtain ⟨src, -, -, inFlight⟩ := took.source
      exact inStock.addresses.named src n as inFlight a inAs)
    (fun docs member e inDocs canonical =>
      inStock.entries.ins n docs member e inDocs e .refl canonical) stores
  have nodes := took.turn.sum_node (missing addrs stock)
  have works := took.turn.sum_node work
  have loads := took.turn.load PeerMsg.cost
  have sent := route_load C.address_injective PeerMsg.cost sends
  have answered : (input.elim 0 fun p => p.2.cost) = event.cost := by
    rcases took.label with ⟨-, isLocal, rfl⟩ | ⟨src, msg, -, rfl, rfl⟩
    · cases event <;> first | rfl | cases isLocal
    · rfl
  rw [answered] at loads
  rcases spends with fewer | ⟨same, less⟩
  · exact .left _ _ (by omega)
  · have equal : ∑ i, missing addrs stock (net'.node i) = ∑ i, missing addrs stock (net.node i) := by
      omega
    unfold rank
    rw [equal]
    exact .right _ (by omega)

/-- No infinite sequence of handler steps starts in a state with mirrored stores. -/
theorem handling_terminates {C : Config X ι} {net : Network ι}
    (mirrored : ∀ i, Mirrors X (net.node i).store) :
    ¬ Diverges (step C) (fun net l => Handling net l ∧ StoresNews net l) net := by
  obtain ⟨addrs, stock, inStock⟩ := exists_inStock C net
  have wf : WellFounded (Prod.Lex (· < ·) (· < ·) : Nat × Nat → Nat × Nat → Prop) :=
    (Prod.lex Nat.lt_wfRel Nat.lt_wfRel).wf
  refine @not_diverges _ _ (step C) _ _ _ wf
    (fun net => (∀ i, Mirrors X (net.node i).store) ∧ InStock C addrs stock net)
    (rank addrs stock) net ⟨mirrored, inStock⟩ ?_
  rintro net l net' ⟨mirrored, inStock⟩ ⟨⟨steady, noClient⟩, stores⟩ stepped
  rcases step_took mirrored stepped with ⟨i, lost, kept, same, -⟩ | ⟨n, event, input, d, sends, took⟩
  · exact absurd same (steady i lost kept)
  · have noClient' : ∀ cmd, event ≠ .client cmd := by
      rintro cmd rfl
      exact noClient n cmd took.client_label
    refine ⟨⟨mirrored_step mirrored stepped, took.inStock (mirrored n) noClient' inStock⟩,
      took.rank_lt (mirrored n) noClient' (fun same => ?_) inStock⟩
    subst same
    rcases took.label with ⟨label, -, -⟩ | ⟨_, _, -, same, -⟩
    · exact stores n label
    · cases same

/-- **The sync protocol terminates** in every state of every run: there is no infinite
sequence of handler steps, without a further client command, in which each INS that is
handled with something unknown stores one of its unknown entries as it is. -/
theorem sync_terminates {C : Config X ι} {allowed : Network ι → Label X ι → Prop}
    {ls : List (Label X ι)} {net : Network ι} (run : NetRun C allowed ls net) :
    ¬ Diverges (step C) (fun net l => Handling net l ∧ StoresNews net l) net :=
  handling_terminates (mirrored_of_run run)

theorem sync_terminates_pair : ∃ ls net, NetRun (pair true) (fun _ _ => True) ls net ∧
    (net.node 0).toP2p = [.new] ∧
    ¬ Diverges (step (pair true)) (fun net l => Handling net l ∧ StoresNews net l) net := by
  let ls : List (Label (reference true) (Fin 2)) :=
    introduction ++ [.act 0 (.client (.add Reference.nobody [Reference.ad 1]))]
  have run : NetRun (pair true) (fun _ _ => True) ls
    ((exec (step (pair true)) (pair true).init ls).get (by decide +kernel)) :=
      .computed _ fun _ _ _ => trivial
  exact ⟨ls, _, run, by decide +kernel, sync_terminates run⟩

/-- Each of two daemons has an ad without author, and refuses that of the other over and
over: the note it sends nevertheless makes it announce its own again. -/
theorem anonymous_ads_diverge : ∃ net, NetRun (pair true) (fun _ _ => True)
    (introduction ++ [.act 0 (.client (.add Reference.nobody [Reference.ad 1]))] ++ transfer 0 1 ++
      [.act 1 (.client (.add Reference.nobody [Reference.ad 2]))]) net ∧
    Diverges (step (pair true)) Handling net := by
  let start : List (Label (reference true) (Fin 2)) :=
    introduction ++ [.act 0 (.client (.add Reference.nobody [Reference.ad 1]))] ++ transfer 0 1 ++
      [.act 1 (.client (.add Reference.nobody [Reference.ad 2]))]
  -- from the note of the second daemon's db thread to the next one
  let cycle : List (Label (reference true) (Fin 2)) :=
    List.flatten [round 1, answer 1 0, [.deliver 0 1, .act 1 .dbPeerOp], answerDb 1,
      [.deliver 1 0, .act 0 .dbPeerOp], answerDb 0, answer 0 1,
      [.deliver 1 0, .act 0 .dbPeerOp], answerDb 0, answer 0 1, [.act 1 .dbPeerOp]]
  let net := (exec (step (pair true)) (pair true).init start).get (by decide +kernel)
  have back : exec (step (pair true)) net (.act 1 .answerDb :: cycle) = some net := by
    decide +kernel
  have handled : ∀ l ∈ .act 1 .answerDb :: cycle, Handling (pair true).init l := by
    decide +kernel
  exact ⟨net, .computed _ fun _ _ _ => trivial,
    diverges_of_cycle back fun _ l member => (handled l member).anywhere⟩

/-- **With canonical entries only, it always does.** -/
theorem canonical_terminates {C : Config X ι}
    (canonical : ∀ i, ∀ doc ∈ C.db i, Canonical X doc.data) {ls : List (Label X ι)}
    {net : Network ι} (run : NetRun C AddsOnly ls net) : ¬ Diverges (step C) Handling net := by
  have entries : Carried (fun _ e => Canonical X e) net := by
    refine invariant_of_turns (fun _ _ ok => ok.1) run (carried_init canonical) ?_
    intro net l net' n event input d sends mirrored carried allowed took
    refine took.carried (mirrored n) carried (fun _ _ is _ => is) ?_ ?_
    · intro e stored is again
      obtain rfl := is.unique again
      exact is
    · rintro author docs rfl
      obtain ⟨_, _, same, fine⟩ := allowed.2 n _ took.client_label
      cases same
      exact fun ad member _ => fine ad member
  rintro ⟨f, rfl, steps⟩
  have all : ∀ n, (∀ i, Mirrors X ((f n).node i).store) ∧
      Carried (fun _ e => Canonical X e) (f n) := by
    intro n
    induction n with
    | zero => exact ⟨mirrored_of_run run, entries⟩
    | succ n ih =>
        obtain ⟨l, ⟨steady, noClient⟩, stepped⟩ := steps n
        refine ⟨mirrored_step ih.1 stepped, ?_⟩
        rcases step_took ih.1 stepped with ⟨i, lost, kept, same, -⟩ |
          ⟨k, event, input, d, sends, took⟩
        · exact absurd same (steady i lost kept)
        · refine took.carried (ih.1 k) ih.2 (fun _ _ is _ => is) ?_ ?_
          · intro e stored is again
            obtain rfl := is.unique again
            exact is
          · rintro author docs rfl
            exact absurd took.client_label (noClient k _)
  refine handling_terminates (C := C) (all 0).1 ⟨f, rfl, fun n => ?_⟩
  obtain ⟨l, handling, stepped⟩ := steps n
  refine ⟨l, ⟨handling, fun i _ docs rest queue new => ?_⟩, stepped⟩
  obtain ⟨e, unknown⟩ := List.exists_mem_of_ne_nil _ new
  exact ⟨e, unknown, (all n).2.ins i docs (by rw [queue]; exact List.mem_cons_self) e
    (List.mem_filter.mp unknown).1⟩

end Piac
