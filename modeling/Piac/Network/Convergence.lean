/-
# Network.Convergence — left alone, the daemons end up with one database

`Network.Sync` is about quiet states, and `Network.Termination` says that a network
left alone takes no infinite run. The two meet here. A thread away from its poll can
always take a step, and it comes to its poll with its flags down (`Lowered`); so a
network in which no handler can take a step is quiet (`stuck_quiescent`), and every way
in which the threads can be scheduled leads to one.

Who ends up with whose ads is settled by the command lines and the ports: the PEERs
that go around only name daemons of the component in which they go around (`Within`).
So the components of any state are those at the start (`chain_iff`).
-/
import Piac.Network.Removal
import Piac.Network.Termination

namespace Piac

set_option autoImplicit false

open Piac.Theory.CppString Piac.Theory.Transition Piac.Theory.MessagePassing

universe u

variable {X : Platform} {ι : Type u}

/-! ## On the way to the poll -/

/-- The flags that the p2p thread has passed in this round of its loop are down. -/
structure Lowered (d : Daemon) : Prop where
  peers : d.phase.cost ≤ 2 → d.p2p.toBcastPeers = false
  hashes : d.phase.cost ≤ 1 → d.p2p.toBcastHashes = false
  requests : d.phase.cost = 0 → d.p2p.toSendDbRequests = false

/-- A thread that has answered, or is back at the start of its loop, has passed no flag. -/
theorem Lowered.afresh {d : Daemon} (afresh : d.phase = .bcastPeers ∨ d.phase = .answered) :
    Lowered d := by
  have high : 3 ≤ d.phase.cost := by rcases afresh with here | here <;> rw [here] <;> decide
  exact ⟨fun low => by omega, fun low => by omega, fun low => by omega⟩

theorem Lowered.congr {d d' : Daemon} (lowered : Lowered d) (p2p : d'.p2p = d.p2p)
    (phase : d'.phase = d.phase) : Lowered d' where
  peers low := by rw [p2p]; exact lowered.peers (phase ▸ low)
  hashes low := by rw [p2p]; exact lowered.hashes (phase ▸ low)
  requests low := by rw [p2p]; exact lowered.requests (phase ▸ low)

theorem Moves.lowered {d : Daemon} {event : Event X} {phase : Phase} (moves : Moves d event phase)
    (lowered : Lowered d) : Lowered { d with phase } := by
  cases moves with
  | bcastPeers _ down => exact ⟨fun _ => down, fun low => by cases low; contradiction, nofun⟩
  | bcastHashes here down =>
      exact ⟨fun _ => lowered.peers (by rw [here]; decide), fun _ => down, nofun⟩
  | sendDbRequests here down =>
      exact ⟨fun _ => lowered.peers (by rw [here]; decide),
        fun _ => lowered.hashes (by rw [here]; decide), fun _ => down⟩
  | pass _ => exact .afresh (.inl rfl)

/-- **Every event keeps the passed flags down.** -/
theorem Acts.lowered {p2pPort : Nat} {d d' : Daemon} {event : Event X} {sends : Sends}
    (acts : Acts p2pPort d event d' sends) (running : d'.fault = none) (lowered : Lowered d) :
    Lowered d' := by
  cases acts with
  | move moves => exact moves.lowered lowered
  | bcastPeers _ _ => exact ⟨fun _ => rfl, fun low => by cases low; contradiction, nofun⟩
  | bcastHashes here _ =>
      exact ⟨fun _ => lowered.peers (by rw [here]; decide), fun _ => rfl, nofun⟩
  | sendDbRequests here _ _ =>
      exact ⟨fun _ => lowered.peers (by rw [here]; decide),
        fun _ => lowered.hashes (by rw [here]; decide), fun _ => rfl⟩
  | recvPeer _ _ => exact .afresh (.inr rfl)
  | recvHash _ _ => exact .afresh (.inr rfl)
  | recvReq _ _ => exact .afresh (.inr rfl)
  | recvDoc _ _ => exact .afresh (.inr rfl)
  | answerPut _ _ _ _ => exact .afresh (.inl rfl)
  | answerNew _ _ => exact .afresh (.inl rfl)
  | get _ _ => exact lowered.congr rfl rfl
  | insKnown _ _ => exact lowered.congr rfl rfl
  | insNew _ _ _ => exact lowered.congr rfl rfl
  | client _ => exact lowered.congr rfl rfl
  | fault _ failed => rw [running] at failed; cases failed

/-! ## What a daemon can do -/

section Enabled

variable {p2pPort : Nat} {d : Daemon}

theorem act_eq_actRunning (running : d.fault = none) (event : Event X) :
    d.act p2pPort event = d.actRunning p2pPort event :=
  if_pos running

/-- A running daemon that no call of a handler is open to waits at its poll, with nothing in
the inproc pair. -/
theorem idle_of_stuck (running : d.fault = none)
    (stuck : ∀ event : Event X, event.isLocal = true → (∀ cmd, event ≠ .client cmd) →
      d.act p2pPort event = none) : d.phase = .poll ∧ d.toDb = [] ∧ d.toP2p = [] := by
  have disabled : ∀ event : Event X, event.isLocal = true → (∀ cmd, event ≠ .client cmd) →
      d.actRunning p2pPort event = none := fun event isLocal noClient => by
    rw [← act_eq_actRunning running]
    exact stuck event isLocal noClient
  have poll : d.phase = .poll := by
    cases phase : d.phase with
    | bcastPeers => have none_ := disabled .bcastPeers rfl (by simp); simp [Daemon.actRunning, phase] at none_
    | bcastHashes => have none_ := disabled .bcastHashes rfl (by simp); simp [Daemon.actRunning, phase] at none_
    | sendDbRequests =>
        have none_ := disabled .sendDbRequests rfl (by simp)
        simp [Daemon.actRunning, phase] at none_
    | poll => rfl
    | answered => have none_ := disabled .pass rfl (by simp); simp [Daemon.actRunning, phase] at none_
  refine ⟨poll, ?_, ?_⟩
  · cases queue : d.toDb with
    | nil => rfl
    | cons req rest => have none_ := disabled .dbPeerOp rfl (by simp); simp [Daemon.actRunning, queue] at none_
  · cases queue : d.toP2p with
    | nil => rfl
    | cons rep rest =>
        have none_ := disabled .answerDb rfl (by simp)
        simp [Daemon.actRunning, poll, queue] at none_

/-- At its poll a running daemon answers whatever message is delivered. -/
theorem act_answerP2p_isSome (running : d.fault = none) (poll : d.phase = .poll) (msg : PeerMsg) :
    d.act p2pPort (.answerP2p msg : Event X) ≠ none := by
  rw [act_eq_actRunning running]
  simp [Daemon.actRunning, poll]

end Enabled

/-! ## Where nothing is left to do -/

variable [DecidableEq ι]

theorem lowered_of_run {C : Config X ι} {allowed : Network ι → Label X ι → Prop}
    {ls : List (Label X ι)} {net : Network ι} (run : NetRun C allowed ls net) (i : ι)
    (running : Running net i) : Lowered (net.node i) := by
  have everywhere : Everywhere (fun d => d.fault = none → Lowered d) (fun _ => True) net :=
    everywhere_of_run run (fun _ _ _ => .afresh (.inl rfl)) fun _ everywhere _ took =>
      ⟨fun running => took.acts.lowered running (everywhere.daemons _ took.running),
        fun _ _ _ => trivial⟩
  exact everywhere.daemons i running

omit [DecidableEq ι] in
theorem handling_act {net : Network ι} {i : ι} {event : Event X}
    (noClient : ∀ cmd, event ≠ .client cmd) : Handling net (.act i event) := by
  constructor
  · intro j lost kept same
    cases same
  · intro j cmd same
    cases same
    exact noClient cmd rfl

omit [DecidableEq ι] in
theorem handling_deliver {net : Network ι} {i j : ι} : Handling (X := X) net (.deliver i j) := by
  constructor
  · intro k lost kept same
    cases same
  · intro k cmd same
    cases same

/-- **A network in which no handler can take a step is quiet.** -/
theorem stuck_quiescent {C : Config X ι} {net : Network ι} (stuck : Stuck (step C) Handling net)
    (lowered : ∀ i, Running net i → Lowered (net.node i)) : Quiescent net := by
  have idle : ∀ i, Running net i →
      (net.node i).phase = .poll ∧ (net.node i).toDb = [] ∧ (net.node i).toP2p = [] := by
    refine fun i running => @idle_of_stuck X (C.port i) _ running fun event isLocal noClient => ?_
    have none_ := stuck (.act i event) (handling_act noClient)
    simpa [step, isLocal] using none_
  have settled : ∀ i, Running net i → (net.node i).phase.cost = 0 := fun i running => by
    rw [(idle i running).1]; rfl
  refine ⟨fun i j running => ?_, fun i running => (idle i running).2.1,
    fun i running => (idle i running).2.2, fun i running => ?_, fun i running => ?_,
    fun i running => ?_⟩
  · cases queue : net.link i j with
    | nil => rfl
    | cons msg rest =>
        have none_ := stuck (.deliver i j) handling_deliver
        refine absurd ?_ (@act_answerP2p_isSome X (C.port j) _ running (idle j running).1 msg)
        simpa [step, Net.pop, queue] using none_
  · exact (lowered i running).peers (by rw [settled i running]; decide)
  · exact (lowered i running).hashes (by rw [settled i running]; decide)
  · exact (lowered i running).requests (settled i running)

/-! ## The components -/

omit [DecidableEq ι] in
/-- At the start the components are those of the command lines. -/
theorem chain_init_iff {C : Config X ι} {i j : ι} : Chain C C.init i j ↔ Joined C i j := by
  refine ⟨(within_init C).chain, fun joined => ?_⟩
  induction joined with
  | rel i j known => exact .single ⟨rfl, rfl, .inl known⟩
  | refl i => exact .refl
  | symm i j _ ih => exact ih.symm
  | trans i j k _ _ first second => exact first.trans second

theorem knows_of_run {C : Config X ι} {ls : List (Label X ι)} {net : Network ι}
    (run : NetRun C NoRestart ls net) {i j : ι} (knows : Knows C C.init i j) : Knows C net i j :=
  @invariant_of_turns _ _ _ C NoRestart (fun _ _ ok => ok) (fun net => Knows C net i j) _ _ run knows
    fun _ knows _ took => took.knows_mono knows

/-- **The components stay as they are at the start**, as long as all daemons go on. -/
theorem chain_iff {C : Config X ι} {ls : List (Label X ι)} {net : Network ι}
    (run : NetRun C NoRestart ls net) (running : ∀ i, Running net i) {i j : ι} :
    Chain C net i j ↔ Chain C C.init i j := by
  constructor
  · exact fun chain => chain_init_iff.mpr ((within_of_run run).chain chain)
  · refine fun chain => chain.mono fun a b link => ⟨running a, running b, ?_⟩
    exact link.2.2.imp (knows_of_run run) (knows_of_run run)

/-! ## Where every schedule leads -/

/-- One peer list and one database for each component: everybody knows everybody, and has
what was stored at the start or added since at one of them. -/
structure Converged (C : Config X ι) (ls : List (Label X ι)) (net : Network ι) : Prop where
  acquainted : ∀ i j, i ≠ j → Chain C C.init i j → Knows C net i j
  union : ∀ i h, h ∈ hashes X (net.node i).store.db ↔
    ∃ k, Chain C C.init i k ∧ Contributed C ls k h

theorem Quiescent.converged {C : Config X ι} (release : X.ndebug = true)
    (canonical : ∀ i, ∀ doc ∈ C.db i, Canonical X doc.data) {ls : List (Label X ι)}
    {net : Network ι} (run : NetRun C AddsOnly ls net) (quiet : Quiescent net) :
    Converged C ls net := by
  have steady : NetRun C NoRestart ls net := run.weaken fun _ _ ok => ok.1
  have synced := synced_of_run release canonical run
  have mirrored := mirrored_of_run run
  have component := fun i j => chain_iff (i := i) (j := j) steady synced.running
  have acquainted : ∀ i j, i ≠ j → Chain C C.init i j → Knows C net i j := fun i j apart chain =>
    (quiet.peersSettled.chain (peered_of_run steady) ((component i j).mpr chain)
      (synced.running i)).resolve_left apart
  refine ⟨acquainted, fun i h => ⟨fun stored => ?_, ?_⟩⟩
  · obtain ⟨doc, member, rfl⟩ := mem_hashes.mp stored
    obtain ⟨-, k, chain, from_⟩ := synced.carried.stored i doc member
    exact ⟨k, (component i k).mp chain, from_⟩
  · rintro ⟨k, chain, from_⟩
    have kept := synced.kept k h from_
    by_cases same : k = i
    · exact same ▸ ((mirrored k).same h).mp kept
    · rcases synced.covered k i (acquainted k i same chain.symm) h kept with has | pending
      · exact ((mirrored i).same h).mp has
      · exact absurd pending (quiet.not_pending synced.running synced.flagged)

/-- Handlers contribute nothing. -/
theorem contributed_append {C : Config X ι} {ls ms : List (Label X ι)} {net net' : Network ι}
    (run : Run (step C) Handling net ms net') {i : ι} {h : Bytes} :
    Contributed C (ls ++ ms) i h ↔ Contributed C ls i h := by
  induction run with
  | nil => rw [List.append_nil]
  | snoc _ handling _ ih =>
      rw [← ih, ← List.append_assoc]
      refine or_congr_right (exists_congr fun author => exists_congr fun docs =>
        and_congr_left fun _ => ⟨fun member => ?_, fun member => List.mem_append_left _ member⟩)
      rcases List.mem_append.mp member with old | new
      · exact old
      · exact absurd (List.mem_singleton.mp new).symm (handling.2 i _)

theorem converged_of_stuck {C : Config X ι} (release : X.ndebug = true)
    (canonical : ∀ i, ∀ doc ∈ C.db i, Canonical X doc.data) {ls ms : List (Label X ι)}
    {net net' : Network ι} (run : NetRun C AddsOnly ls net)
    (handled : Run (step C) Handling net ms net') (stuck : Stuck (step C) Handling net') :
    Converged C ls net' := by
  have whole : NetRun C AddsOnly (ls ++ ms) net' :=
    run.trans (handled.weaken fun _ _ handling => handling.addsOnly)
  obtain ⟨acquainted, union⟩ :=
    (stuck_quiescent stuck (lowered_of_run whole)).converged release canonical whole
  refine ⟨acquainted, fun i h => (union i h).trans ?_⟩
  exact exists_congr fun k => and_congr_right fun _ => contributed_append handled

/-- **Left alone, the daemons converge.** In a Release build, whatever clients have added
so far, if only entries that peers accept and store as they are: however the threads are
scheduled from then on, they come to a rest, there is a way to one, and in every state at
rest the daemons of a component of the start know each other, and each has all that was
stored at, or added to, one of them. -/
theorem sync_converges [Fintype ι] {C : Config X ι} (release : X.ndebug = true)
    (canonical : ∀ i, ∀ doc ∈ C.db i, Canonical X doc.data) {ls : List (Label X ι)}
    {net : Network ι} (run : NetRun C AddsOnly ls net) :
    ¬ Diverges (step C) Handling net ∧
    (∃ ms net', Run (step C) Handling net ms net' ∧ Stuck (step C) Handling net') ∧
    ∀ ms net', Run (step C) Handling net ms net' → Stuck (step C) Handling net' →
      Converged C ls net' := by
  have finite := canonical_terminates canonical run
  exact ⟨finite, exists_stuck finite, fun ms net' handled stuck =>
    converged_of_stuck release canonical run handled stuck⟩

/-! ## Two daemons -/

/-- `alice` adds an ad at one of two daemons. -/
def addAt (i : Fin 2) : Label (reference true) (Fin 2) :=
  .act i (.client (.add Reference.alice [Reference.ad 1]))

theorem pair_canonical (i : Fin 2) : ∀ doc ∈ (pair true).db i, Canonical (reference true) doc.data :=
  fun _ member => absurd member List.not_mem_nil

/-- It may be added before they have spoken to each other. -/
theorem addFirst_run : NetRun (pair true) AddsOnly [addAt 0]
    ((exec (step (pair true)) (pair true).init [addAt 0]).get (by decide +kernel)) :=
  .computed _ fun net l member => by
    cases List.mem_singleton.mp member
    exact addsOnly_add (canonical_entryOf rfl (by decide)) net 0

theorem addFirst_chain (i : Fin 2) : ∃ k, Chain (pair true) (pair true).init i k ∧
    Contributed (pair true) [addAt 0] k (Reference.sha256 (Reference.aliceEntry "1")) := by
  refine ⟨0, ?_, .inr ⟨_, _, List.mem_singleton_self _, Reference.ad 1, List.mem_singleton_self _,
    by decide +kernel⟩⟩
  have linked : ∀ j : Fin 2, j = 0 ∨ Linked (pair true) (pair true).init j 0 := by decide +kernel
  rcases linked i with rfl | linked
  · exact .refl
  · exact .single linked

/-- Then they come to a rest at which both have it. -/
theorem addFirst_rests : ∃ ls net, NetRun (pair true) AddsOnly (addAt 0 :: ls) net ∧
    Stuck (step (pair true)) Handling net ∧ (∀ l ∈ ls, ∀ i cmd, l ≠ .act i (.client cmd)) ∧
    ∀ i, Reference.sha256 (Reference.aliceEntry "1") ∈ hashes (reference true) (net.node i).store.db := by
  obtain ⟨ls, net, handled, rest⟩ := exists_stuck (canonical_terminates pair_canonical addFirst_run)
  refine ⟨ls, net, addFirst_run.trans (handled.weaken fun _ _ handling => handling.addsOnly), rest,
    fun l member => ?_, fun i => ?_⟩
  · obtain ⟨_, handling⟩ := handled.allowed_of_mem member
    exact handling.2
  · exact ((converged_of_stuck rfl pair_canonical addFirst_run handled rest).union i _).mpr
      (addFirst_chain i)

theorem sync_converges_pair : ∃ ls net, NetRun (pair true) AddsOnly ls net ∧
    ∃ ms net', Run (step (pair true)) Handling net ms net' ∧ Stuck (step (pair true)) Handling net' ∧
      Reference.sha256 (Reference.aliceEntry "1") ∈
        hashes (reference true) (net'.node 1).store.db := by
  obtain ⟨-, ⟨ms, net', handled, stuck⟩, converges⟩ := sync_converges rfl pair_canonical addFirst_run
  exact ⟨_, _, addFirst_run, ms, net', handled, stuck,
    ((converges ms net' handled stuck).union 1 _).mpr (addFirst_chain 1)⟩

end Piac
