/-
# Network.Discovery — the daemons find each other

The argument is a gossip closure. A daemon whose broadcast flag is down has told
every peer all it knows: each address it knows, its own included, is known to the
peer already or is in a PEER message on its way there (`Peered.told`). A daemon
that learns something raises the flag in the same step, so learning never breaks
that. Once no such message is in flight and all flags are down, knowing is
symmetric and transitive (`discovery_complete`).

An address nobody listens on is passed around like the others.
-/
import Piac.Network.Basic

namespace Piac

set_option autoImplicit false

open Piac.Theory.CppString Piac.Theory.Transition Piac.Theory.MessagePassing

universe u

variable {X : Platform} {ι : Type u}

/-- `j` is in the peer list of `i`. -/
def Knows (C : Config X ι) (net : Network ι) (i j : ι) : Prop :=
  C.address j ∈ (net.node i).p2p.myPeers

def Running (net : Network ι) (i : ι) : Prop := (net.node i).fault = none

instance (C : Config X ι) (net : Network ι) (i j : ι) : Decidable (Knows C net i j) :=
  inferInstanceAs (Decidable (_ ∈ _))

instance (net : Network ι) (i : ι) : Decidable (Running net i) :=
  inferInstanceAs (Decidable (_ = _))

/-! ## The peer list in one event -/

/-- The peer list changes only when a PEER is answered, and its flag goes down only
when it is sent to everyone on it. -/
theorem Acts.peers {p2pPort : Nat} {d d' : Daemon} {event : Event X} {sends : Sends}
    (acts : Acts p2pPort d event d' sends) :
    (d'.p2p.myPeers = d.p2p.myPeers ∧ d'.p2p.toBcastPeers = d.p2p.toBcastPeers) ∨
    (d'.p2p.myPeers = d.p2p.myPeers ∧ ∀ a ∈ d.p2p.myPeers,
      (a, .peer (localhost p2pPort :: d.p2p.myPeers)) ∈ sends) ∨
    ∃ addrs, event = .answerP2p (.peer addrs) ∧ Learned p2pPort addrs d.p2p d'.p2p := by
  cases acts with
  | bcastPeers _ _ => exact .inr (.inl ⟨rfl, fun a known => List.mem_map_of_mem known⟩)
  | recvPeer _ learned => exact .inr (.inr ⟨_, rfl, learned⟩)
  | recvHash _ noted => exact .inl ⟨noted.peers, noted.peersFlag⟩
  | fault _ _ same => exact .inl ⟨by rw [same], by rw [same]⟩
  | _ => exact .inl ⟨rfl, rfl⟩

theorem Acts.peers_mono {p2pPort : Nat} {d d' : Daemon} {event : Event X} {sends : Sends}
    (acts : Acts p2pPort d event d' sends) {a : Bytes} (known : a ∈ d.p2p.myPeers) :
    a ∈ d'.p2p.myPeers := by
  rcases acts.peers with ⟨same, -⟩ | ⟨same, -⟩ | ⟨addrs, -, learned⟩
  · rwa [same]
  · rwa [same]
  · exact (learned.mem a).mpr (.inl known)

/-- A PEER that is answered without a fault is taken to heart. -/
theorem Acts.learned {p2pPort : Nat} {d d' : Daemon} {addrs : List Bytes} {sends : Sends}
    (acts : Acts p2pPort d (.answerP2p (.peer addrs) : Event X) d' sends)
    (running : d'.fault = none) : Learned p2pPort addrs d.p2p d'.p2p := by
  cases acts with
  | move moves => cases moves
  | recvPeer _ learned => exact learned
  | fault _ failed => rw [running] at failed; cases failed

/-! ## The peer list at the start -/

theorem foldl_emplace_mem {addrs peers : List Bytes} {a : Bytes} :
    a ∈ addrs.foldl emplace peers ↔ a ∈ peers ∨ a ∈ addrs := by
  induction addrs generalizing peers with
  | nil => simp
  | cons b rest ih => rw [List.foldl_cons, ih, mem_emplace, List.mem_cons, or_assoc]

theorem mem_initialPeers {cmdline : List Bytes} {defaultP2pPort p2pPort : Nat} {a : Bytes} :
    a ∈ initialPeers cmdline defaultP2pPort p2pPort ↔
      (a ∈ cmdline ∧ a ≠ localhost p2pPort) ∨
        ∃ p, defaultP2pPort ≤ p ∧ p < p2pPort ∧ a = localhost p := by
  simp only [initialPeers, foldl_emplace_mem, List.mem_filter, List.not_mem_nil, false_or,
    List.mem_map, List.mem_range'_1, decide_eq_true_eq]
  refine or_congr Iff.rfl (exists_congr fun p => ?_)
  constructor
  · rintro ⟨⟨low, high⟩, rfl⟩
    exact ⟨low, by omega, rfl⟩
  · rintro ⟨low, high, rfl⟩
    exact ⟨⟨low, by omega⟩, rfl⟩

theorem localhost_injective : Function.Injective localhost := fun _ _ same =>
  stdToString_injective (List.append_cancel_left same)

theorem Config.address_notMem_peers (C : Config X ι) (i : ι) : C.address i ∉ C.peers i := by
  rintro own
  rcases mem_initialPeers.mp own with ⟨-, other⟩ | ⟨p, -, below, same⟩
  · exact other rfl
  · exact below.ne (localhost_injective same).symm

/-! ## Everybody has been told -/

/-- `x` reached `j` from `i`, or is on its way. -/
def ToldOf (C : Config X ι) (net : Network ι) (i j : ι) (x : Bytes) : Prop :=
  x = C.address j ∨ x ∈ (net.node j).p2p.myPeers ∨
    ∃ addrs, .peer addrs ∈ net.link i j ∧ x ∈ addrs

structure Peered (C : Config X ι) (net : Network ι) : Prop where
  foreign : ∀ i, C.address i ∉ (net.node i).p2p.myPeers
  told : ∀ i j, Knows C net i j → (net.node i).p2p.toBcastPeers = false → Running net j →
    ∀ x ∈ C.address i :: (net.node i).p2p.myPeers, ToldOf C net i j x

theorem peered_init (C : Config X ι) : Peered C C.init where
  foreign := C.address_notMem_peers
  told _ _ _ down := by cases down

variable [DecidableEq ι]

namespace Took

variable {C : Config X ι} {net net' : Network ι} {l : Label X ι} {n : ι} {event : Event X}
  {input : Option (ι × PeerMsg)} {d : Daemon} {sends : Sends}

theorem running_before (took : Took C net net' l n event input d sends) {i : ι}
    (running : Running net' i) : Running net i := by
  by_cases here : i = n
  · subst here; exact took.running
  · rwa [Running, took.turn.node_other i here] at running

theorem peers_mono (took : Took C net net' l n event input d sends) {i : ι} {a : Bytes}
    (known : a ∈ (net.node i).p2p.myPeers) : a ∈ (net'.node i).p2p.myPeers := by
  by_cases here : i = n
  · subst here; rw [took.turn.node_self]; exact took.acts.peers_mono known
  · rwa [took.turn.node_other i here]

theorem knows_mono (took : Took C net net' l n event input d sends) {i j : ι}
    (knows : Knows C net i j) : Knows C net' i j :=
  took.peers_mono knows

/-- What has been told stays told, to a daemon that goes on. -/
theorem toldOf_mono (took : Took C net net' l n event input d sends) {i j : ι} {x : Bytes}
    (running : Running net' j) (told : ToldOf C net i j x) : ToldOf C net' i j x := by
  rcases told with own | known | ⟨addrs, inFlight, member⟩
  · exact .inl own
  · exact .inr (.inl (took.peers_mono known))
  · rcases took.mem_kept inFlight with kept | ⟨rfl, rfl, -⟩
    · exact .inr (.inr ⟨addrs, kept, member⟩)
    · -- the message is answered in this step
      have learned := took.acts.learned (by rw [← took.turn.node_self]; exact running)
      by_cases own : x = C.address j
      · exact .inl own
      · refine .inr (.inl ?_)
        rw [took.turn.node_self]
        exact (learned.mem x).mpr (.inr ⟨member, own⟩)

theorem peered_foreign (took : Took C net net' l n event input d sends)
    (foreign : ∀ i, C.address i ∉ (net.node i).p2p.myPeers) (i : ι) :
    C.address i ∉ (net'.node i).p2p.myPeers := by
  intro own
  by_cases here : i = n
  · subst here
    rw [took.turn.node_self] at own
    rcases took.acts.peers with ⟨same, -⟩ | ⟨same, -⟩ | ⟨addrs, -, learned⟩
    · exact foreign i (same ▸ own)
    · exact foreign i (same ▸ own)
    · rcases (learned.mem _).mp own with old | ⟨-, other⟩
      · exact foreign i old
      · exact other rfl
  · rw [took.turn.node_other i here] at own
    exact foreign i own

theorem peered (took : Took C net net' l n event input d sends) (peered : Peered C net) :
    Peered C net' := by
  refine ⟨took.peered_foreign peered.foreign, fun i j knows down running x member => ?_⟩
  -- unless `i` sent its list in this step, it knew all this with its flag down before
  have before : Running net j := took.running_before running
  by_cases here : i = n
  · subst here
    unfold Knows at knows
    rw [took.turn.node_self] at knows down member
    rcases took.acts.peers with ⟨same, flag⟩ | ⟨same, sent⟩ | ⟨addrs, -, learned⟩
    · rw [same] at knows member
      exact took.toldOf_mono running (peered.told i j knows (flag ▸ down) before x member)
    · rw [same] at knows member
      exact .inr (.inr ⟨_, took.mem_sent (sent _ knows), member⟩)
    · rcases learned.flags with same | ⟨up, -⟩
      · rw [same] at knows member down
        exact took.toldOf_mono running (peered.told i j knows down before x member)
      · rw [up] at down; cases down
  · unfold Knows at knows
    rw [took.turn.node_other i here] at knows down member
    exact took.toldOf_mono running (peered.told i j knows down before x member)

end Took

theorem peered_of_run {C : Config X ι} {ls : List (Label X ι)} {net : Network ι}
    (run : NetRun C NoRestart ls net) : Peered C net :=
  invariant_of_turns (fun _ _ ok => ok) run (peered_init C) fun _ peered _ took =>
    took.peered peered

/-! ## When the gossip has settled -/

/-- Two running daemons one of which knows the other. -/
def Linked (C : Config X ι) (net : Network ι) (i j : ι) : Prop :=
  Running net i ∧ Running net j ∧ (Knows C net i j ∨ Knows C net j i)

instance (C : Config X ι) (net : Network ι) (i j : ι) : Decidable (Linked C net i j) :=
  inferInstanceAs (Decidable (_ ∧ _ ∧ (_ ∨ _)))

/-- No PEER is in flight to a running daemon, and no running daemon is about to send one. -/
structure PeersSettled (net : Network ι) : Prop where
  delivered : ∀ i j, Running net j → ∀ addrs, .peer addrs ∉ net.link i j
  told : ∀ i, Running net i → (net.node i).p2p.toBcastPeers = false

omit [DecidableEq ι] in
theorem PeersSettled.knows {C : Config X ι} {net : Network ι} (settled : PeersSettled net)
    (peered : Peered C net) {i j : ι} (hi : Running net i) (hj : Running net j)
    (knows : Knows C net i j) {x : Bytes} (member : x ∈ C.address i :: (net.node i).p2p.myPeers) :
    x = C.address j ∨ x ∈ (net.node j).p2p.myPeers := by
  rcases peered.told i j knows (settled.told i hi) hj x member with own | known | ⟨addrs, inFlight, -⟩
  · exact .inl own
  · exact .inr known
  · exact absurd inFlight (settled.delivered i j hj addrs)

omit [DecidableEq ι] in
theorem PeersSettled.symm {C : Config X ι} {net : Network ι} (settled : PeersSettled net)
    (peered : Peered C net) {i j : ι} (hi : Running net i) (hj : Running net j)
    (knows : Knows C net i j) : Knows C net j i := by
  rcases settled.knows peered hi hj knows List.mem_cons_self with same | known
  · -- a daemon does not know itself
    obtain rfl := C.address_injective same
    exact absurd knows (peered.foreign _)
  · exact known

omit [DecidableEq ι] in
theorem PeersSettled.chain {C : Config X ι} {net : Network ι} (settled : PeersSettled net)
    (peered : Peered C net) {i j : ι} (chain : Relation.ReflTransGen (Linked C net) i j)
    (hi : Running net i) : i = j ∨ Knows C net i j := by
  induction chain with
  | refl => exact .inl rfl
  | tail _ link ih =>
      rename_i b c _
      obtain ⟨hb, hc, knows⟩ := link
      have forth : Knows C net b c := knows.elim id (settled.symm peered hc hb)
      rcases ih with rfl | known
      · exact .inr forth
      · rcases settled.knows peered hb hi (settled.symm peered hi hb known)
          (List.mem_cons_of_mem _ forth) with same | reached
        · exact .inl (C.address_injective same).symm
        · exact .inr reached

/-- **Peer discovery is complete.** Without restarts, whenever no PEER is in flight to a
running daemon and every broadcast flag is down: knowing is symmetric among running
daemons, any two of them joined by a chain know each other, and nobody has its own
address in its list. -/
theorem discovery_complete {C : Config X ι} {ls : List (Label X ι)} {net : Network ι}
    (run : NetRun C NoRestart ls net) (settled : PeersSettled net) :
    (∀ i j, Running net i → Running net j → Knows C net i j → Knows C net j i) ∧
    (∀ i j, i ≠ j → Running net i → Relation.ReflTransGen (Linked C net) i j →
      Knows C net i j ∧ Knows C net j i) ∧
    ∀ i, C.address i ∉ (net.node i).p2p.myPeers := by
  have peered := peered_of_run run
  refine ⟨fun i j hi hj => settled.symm peered hi hj, fun i j apart hi chain => ?_, peered.foreign⟩
  have forth := (settled.chain peered chain hi).resolve_left apart
  have hj : Running net j := by
    rcases Relation.ReflTransGen.cases_tail chain with same | ⟨b, -, -, hj, -⟩
    · exact absurd same.symm apart
    · exact hj
  exact ⟨forth, settled.symm peered hi hj forth⟩

/-- The second daemon greets the first, and is greeted. -/
def introduction : List (Label X (Fin 2)) :=
  round 0 ++ round 1 ++ answer 1 0 ++ answer 1 0 ++ answer 0 1 ++ answer 0 1

theorem discovery_complete_pair :
    ∃ net, NetRun (pair true) NoRestart introduction net ∧ PeersSettled net ∧
      Knows (pair true) net 0 1 ∧ Knows (pair true) net 1 0 := by
  let net := (exec (guarded (step (pair true)) NoRestart) (pair true).init introduction).get
    (by decide +kernel)
  have run : NetRun (pair true) NoRestart introduction net := .checked _
  have empty : ∀ i j, net.link i j = [] := by decide +kernel
  have settled : PeersSettled net :=
    ⟨fun i j _ _ inFlight => absurd (empty i j ▸ inFlight) List.not_mem_nil, by decide +kernel⟩
  have linked : Linked (pair true) net 0 1 := by decide +kernel
  exact ⟨net, run, settled,
    (discovery_complete run settled).2.1 0 1 (by decide) linked.1 (.single linked)⟩

end Piac
