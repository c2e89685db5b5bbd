/-
# Network.Withdrawal — how an author withdraws ads for good

A removal is told to nobody, and whoever still has an ad brings it back as soon as it
announces its hashes for another reason (`Network.Removal`). In a network at rest there is
no other reason: a daemon announces its hashes because it has taken the removal itself, and
then without the ad. So an author who sends one `db rm` of his ads to every daemon is rid of
them, in whatever order it arrives and whatever the threads do in between.

`WithdrawnAt` is what holds of a daemon on the way, and `Reduced` of the HASHes; nothing else
is ever sent. `withdrawal_sticks` gives the hashes of every daemon at every time.
-/
import Piac.Network.Authors

namespace Piac

set_option autoImplicit false

open Piac.Theory.CppString Piac.Theory.Transition Piac.Theory.MessagePassing

universe u

variable {X : Platform} {ι : Type u}

/-! ## One daemon -/

variable (X) in
/-- A HASH of some of these hashes that are not withdrawn. -/
def Reduced (toDelete : List Bytes) (db : Database) (msg : PeerMsg) : Prop :=
  ∃ sender told, msg = .hash sender told ∧ ∀ h ∈ told, h ∈ hashes X db ∧ hex h ∉ toDelete

variable (X) in
/-- A daemon `d` that was `d₀` at rest, and has taken the removal if `asked`. -/
structure WithdrawnAt (toDelete : List Bytes) (d₀ : Daemon) (asked : Prop) (d : Daemon) : Prop where
  running : d.fault = none
  stock : ∀ h, h ∈ hashes X d.store.db ↔
    h ∈ hashes X d₀.store.db ∧ (asked → hex h ∉ toDelete)
  docs : ∀ doc ∈ d.store.db, doc ∈ d₀.store.db
  peers : d.p2p.myPeers = d₀.p2p.myPeers
  peersFlag : d.p2p.toBcastPeers = false
  hashesFlag : d.p2p.toBcastHashes = true → asked
  requestsFlag : d.p2p.toSendDbRequests = false
  toDb : d.toDb = []
  toP2p : ∀ rep ∈ d.toP2p, rep = .new ∧ asked

/-- What a removal of the author's own ads leaves. -/
theorem clientOp_rm_own {s s' : Store} {author : Bytes} {toDelete : List Bytes}
    {notes : List DbRep} (mirrors : Mirrors X s)
    (own : ∀ doc ∈ s.db, Wanted X toDelete doc → author = authorOf X doc.data)
    (done : clientOp X s (.rm author toDelete) = .ok (s', notes)) :
    s'.db = s.db.filter fun doc => decide ¬ Wanted X toDelete doc := by
  simp only [clientOp, bind_eq_ok] at done
  obtain ⟨⟨⟩, -, ⟨db, reply⟩, removed, done⟩ := done
  cases done
  have perm : s.myHashes.Perm (hashes X s.db) :=
    (List.perm_ext_iff_of_nodup mirrors.nodup mirrors.well.hashes_nodup).mpr mirrors.same
  rw [dbRmDocs_own mirrors.well own perm] at removed
  cases removed
  rfl

theorem hashes_filter_wanted {db : Database} {toDelete : List Bytes} {h : Bytes} :
    h ∈ hashes X (db.filter fun doc => decide ¬ Wanted X toDelete doc) ↔
      h ∈ hashes X db ∧ hex h ∉ toDelete := by
  simp only [mem_hashes, List.mem_filter]
  constructor
  · rintro ⟨doc, ⟨member, kept⟩, rfl⟩
    exact ⟨⟨doc, member, rfl⟩, of_decide_eq_true kept⟩
  · rintro ⟨⟨doc, member, rfl⟩, kept⟩
    exact ⟨doc, ⟨member, decide_eq_true kept⟩, rfl⟩

section Daemon

variable {toDelete : List Bytes} {d₀ d d' : Daemon} {asked : Prop} {author : Bytes}
  {p2pPort : Nat} {event : Event X} {sends : Sends}

/-- Nothing ends a daemon at such a time. -/
theorem WithdrawnAt.no_fault (release : X.ndebug = true) (before : WithdrawnAt X toDelete d₀ asked d)
    (input : ∀ msg, event = .answerP2p msg → ∃ sender told, msg = .hash sender told) {f : Fault} :
    ¬ Faults d event f := by
  have debug : X.ndebug ≠ false := by rw [release]; exact nofun
  intro faults
  cases faults with
  | request _ up => rw [before.requestsFlag] at up; cases up
  | peer _ _ => obtain ⟨_, _, other⟩ := input _ rfl; cases other
  | req is => exact debug is
  | doc is => exact debug is
  | put is _ => exact debug is
  | reply queued _ => obtain ⟨other, -⟩ := before.toP2p _ queued; cases other
  | peerOp queued _ => rw [before.toDb] at queued; cases queued
  | client is _ => exact debug is

/-- **One event of a daemon on the way**: it learns nothing from a HASH, and what it sends are
HASHes without the withdrawn ads. -/
theorem Acts.withdrawn (acts : Acts p2pPort d event d' sends) (mirrors : Mirrors X d.store)
    (release : X.ndebug = true)
    (own : ∀ doc ∈ d₀.store.db, Wanted X toDelete doc → author = authorOf X doc.data)
    (input : ∀ msg, event = .answerP2p msg → Reduced X toDelete d₀.store.db msg)
    (command : ∀ cmd, event = .client cmd → cmd = .rm author toDelete)
    (before : WithdrawnAt X toDelete d₀ asked d) :
    WithdrawnAt X toDelete d₀ (asked ∨ event = .client (.rm author toDelete)) d' ∧
      ∀ a m, (a, m) ∈ sends → a ∈ d₀.p2p.myPeers ∧ Reduced X toDelete d₀.store.db m := by
  have shape : ∀ msg, event = .answerP2p msg → ∃ sender told, msg = .hash sender told :=
    fun msg answered => let ⟨sender, told, same, _⟩ := input msg answered; ⟨sender, told, same⟩
  have safe := fun f => before.no_fault (f := f) release shape
  obtain ⟨running, stock, docs, peers, peersFlag, hashesFlag, requestsFlag, toDb, toP2p⟩ := before
  -- an event of a handler asks for nothing
  have same (other : ∀ cmd, event ≠ .client cmd) :
      (asked ∨ event = .client (.rm author toDelete)) ↔ asked := or_iff_left (other _)
  cases acts with
  | move moves =>
      rw [same (by rintro cmd rfl; cases moves)]
      exact ⟨⟨running, stock, docs, peers, peersFlag, hashesFlag, requestsFlag, toDb, toP2p⟩, nofun⟩
  | bcastPeers _ up => rw [peersFlag] at up; cases up
  | bcastHashes _ up =>
      rw [same nofun]
      refine ⟨⟨running, stock, docs, peers, peersFlag, nofun, requestsFlag, toDb, toP2p⟩,
        fun a m sent => ?_⟩
      obtain ⟨addr, known, same⟩ := List.mem_map.mp sent
      cases same
      refine ⟨peers ▸ known, _, _, rfl, fun h told => ?_⟩
      obtain ⟨had, kept⟩ := (stock h).mp ((mirrors.same h).mp told)
      exact ⟨had, kept (hashesFlag up)⟩
  | sendDbRequests _ up _ => rw [requestsFlag] at up; cases up
  | recvPeer _ _ => obtain ⟨_, _, other⟩ := shape _ rfl; cases other
  | recvReq _ _ => obtain ⟨_, _, other⟩ := shape _ rfl; cases other
  | recvDoc _ _ => obtain ⟨_, _, other⟩ := shape _ rfl; cases other
  | recvHash _ noted =>
      rw [same nofun]
      obtain ⟨_, _, told, reduced⟩ := input _ rfl
      cases told
      -- it has all that it is told of
      have known : ¬ ∃ h ∈ _, h ∉ d.store.myHashes := fun ⟨h, member, unknown⟩ =>
        let ⟨had, kept⟩ := reduced h member
        unknown ((mirrors.same h).mpr ((stock h).mpr ⟨had, fun _ => kept⟩))
      refine ⟨⟨running, stock, docs, noted.peers.trans peers, noted.peersFlag.trans peersFlag,
        fun up => hashesFlag (noted.hashesFlag ▸ up), ?_, toDb, toP2p⟩, nofun⟩
      refine Bool.eq_false_of_not_eq_true fun up => ?_
      rcases noted.sendFlag.mp up with was | new
      · rw [requestsFlag] at was; cases was
      · exact known new
  | answerPut _ queue _ _ =>
      obtain ⟨other, -⟩ := toP2p _ (queue ▸ List.mem_cons_self)
      cases other
  | answerNew _ queue =>
      rw [same nofun]
      obtain ⟨-, hasAsked⟩ := toP2p .new (queue ▸ List.mem_cons_self)
      exact ⟨⟨running, stock, docs, peers, peersFlag, fun _ => hasAsked, requestsFlag, toDb,
        fun rep member => toP2p rep (queue ▸ List.mem_cons_of_mem _ member)⟩, nofun⟩
  | get queue _ => rw [toDb] at queue; cases queue
  | insKnown queue _ => rw [toDb] at queue; cases queue
  | insNew queue _ _ => rw [toDb] at queue; cases queue
  | client done =>
      cases command _ rfl
      have left := clientOp_rm_own mirrors (fun doc member => own doc (docs doc member)) done
      refine ⟨⟨running, fun h => ?_, fun doc member => ?_, peers, peersFlag, fun _ => .inr rfl,
        requestsFlag, toDb, fun rep member => ?_⟩, nofun⟩
      · show h ∈ Piac.hashes X _ ↔ _
        rw [left, hashes_filter_wanted, stock]
        exact ⟨fun ⟨⟨had, _⟩, kept⟩ => ⟨had, fun _ => kept⟩,
          fun ⟨had, kept⟩ => ⟨⟨had, fun _ => kept (.inr rfl)⟩, kept (.inr rfl)⟩⟩
      · change doc ∈ _ at member
        rw [left] at member
        exact docs doc (List.mem_filter.mp member).1
      · rcases List.mem_append.mp member with old | new
        · exact ⟨(toP2p rep old).1, .inr rfl⟩
        · exact ⟨List.mem_singleton.mp new, .inr rfl⟩
  | fault faults => exact absurd faults (safe _)

end Daemon

/-! ## The network -/

section Network

variable {C : Config X ι} {author : Bytes} {toDelete : List Bytes} {net₀ net net' : Network ι}

/-- The handlers go on, and the author's removal reaches one daemon after the other. -/
def Withdraws (author : Bytes) (toDelete : List Bytes) (net : Network ι) (l : Label X ι) : Prop :=
  NoRestart net l ∧ ∀ i cmd, l = .act i (.client cmd) → cmd = .rm author toDelete

/-- What holds after the steps `ms` of a network that was at rest as `net₀`. -/
structure Withdrawn (author : Bytes) (toDelete : List Bytes) (net₀ : Network ι)
    (ms : List (Label X ι)) (net : Network ι) : Prop where
  mirrors : ∀ i, Mirrors X (net.node i).store
  node : ∀ i, WithdrawnAt X toDelete (net₀.node i) (.act i (.client (.rm author toDelete)) ∈ ms)
    (net.node i)
  link : ∀ i j, ∀ msg ∈ net.link i j, Reduced X toDelete (net₀.node j).store.db msg

variable [DecidableEq ι]

/-- The daemons of a network at rest have what their peers have. -/
def Agreed (C : Config X ι) (net : Network ι) : Prop :=
  ∀ i j, Knows C net i j → ∀ h, h ∈ hashes X (net.node i).store.db →
    h ∈ hashes X (net.node j).store.db

theorem Took.withdrawn {ms : List (Label X ι)} {l : Label X ι} {n : ι} {event : Event X}
    {input : Option (ι × PeerMsg)} {d : Daemon} {sends : Sends}
    (took : Took C net net' l n event input d sends) (release : X.ndebug = true)
    (own : ∀ i, ∀ doc ∈ (net₀.node i).store.db, Wanted X toDelete doc → author = authorOf X doc.data)
    (agreed : Agreed C net₀) (ok : Withdraws author toDelete net l)
    (withdrawn : Withdrawn author toDelete net₀ ms net) :
    Withdrawn author toDelete net₀ (ms ++ [l]) net' := by
  obtain ⟨mirrors, node, link⟩ := withdrawn
  obtain ⟨after, sent⟩ := took.acts.withdrawn (mirrors n) release (own n)
    (fun msg same => by
      subst same
      obtain ⟨src, -, -, inFlight⟩ := took.source
      exact link src n msg inFlight)
    (fun cmd same => by
      subst same
      exact ok.2 n cmd took.client_label)
    (node n)
  refine ⟨fun i => ?_, fun i => ?_, fun i j msg member => ?_⟩
  · by_cases here : i = n
    · subst here
      rw [took.turn.node_self]
      exact took.acts.mirrors (mirrors i)
    · rw [took.turn.node_other i here]
      exact mirrors i
  · by_cases here : i = n
    · subst here
      rw [took.turn.node_self, List.mem_append, List.mem_singleton]
      have asks : (Label.act i (.client (.rm author toDelete)) = l) ↔
          event = .client (.rm author toDelete) := by
        rcases took.label with ⟨rfl, -, -⟩ | ⟨src, msg, rfl, rfl, -⟩
        · exact ⟨fun same => by cases same; rfl, fun same => by rw [same]⟩
        · exact ⟨nofun, nofun⟩
      rw [asks]
      exact after
    · have other : Label.act i (.client (.rm author toDelete)) ≠ l := by
        rintro rfl
        rcases took.label with ⟨same, -, -⟩ | ⟨_, _, same, -, -⟩
        · cases same; exact here rfl
        · cases same
      rw [took.turn.node_other i here, List.mem_append, List.mem_singleton, or_iff_left other]
      exact node i
  · rcases took.mem_new member with old | ⟨rfl, new⟩
    · exact link i j msg old
    · -- a daemon tells those it knew at rest, and they had all that it had
      obtain ⟨known, sender, told, rfl, reduced⟩ := sent _ _ new
      exact ⟨sender, told, rfl, fun h member =>
        ⟨agreed i j known h (reduced h member).1, (reduced h member).2⟩⟩

/-- **An author who removes his ads at every daemon is rid of them.** In a Release build, in
a network at rest: while the removal of ads that are all his reaches the daemons, in any
order and any number of times, each has what it had, less these ads from its own removal on. -/
theorem withdrawal_sticks (release : X.ndebug = true)
    (canonical : ∀ i, ∀ doc ∈ C.db i, Canonical X doc.data) {ls : List (Label X ι)}
    (run : NetRun C AddsOnly ls net₀) (rest : Stuck (step C) Handling net₀)
    (own : ∀ i, ∀ doc ∈ (net₀.node i).store.db, Wanted X toDelete doc → author = authorOf X doc.data)
    {ms : List (Label X ι)} (after : Run (step C) (Withdraws author toDelete) net₀ ms net)
    (i : ι) (h : Bytes) :
    h ∈ hashes X (net.node i).store.db ↔ h ∈ hashes X (net₀.node i).store.db ∧
      (.act i (.client (.rm author toDelete)) ∈ ms → hex h ∉ toDelete) := by
  have running := (synced_of_run release canonical run).running
  have quiet := stuck_quiescent rest (lowered_of_run run)
  have converged := quiet.converged release canonical run
  have agreed : Agreed C net₀ := fun a b knows h has => by
    obtain ⟨k, chain, from_⟩ := (converged.union a h).mp has
    have back := chain_init_iff.mpr ((within_of_run run).knows a b knows)
    exact (converged.union b h).mpr ⟨k, back.symm.trans chain, from_⟩
  have start : Withdrawn author toDelete net₀ ([] : List (Label X ι)) net₀ := by
    refine ⟨mirrored_of_run run, fun i => ?_, fun i j msg member => ?_⟩
    · refine ⟨running i, fun h => (and_iff_left fun none_ => absurd none_ List.not_mem_nil).symm,
        fun _ member => member, rfl, quiet.peersFlag i (running i), fun up => ?_,
        quiet.requestsFlag i (running i), quiet.toDb i (running i), fun rep member => ?_⟩
      · rw [quiet.hashesFlag i (running i)] at up; cases up
      · rw [quiet.toP2p i (running i)] at member; cases member
    · rw [quiet.links i j (running j)] at member
      cases member
  have withdrawn : Withdrawn author toDelete net₀ ms net := by
    refine after.history start fun ms net l net' withdrawn ok stepped => ?_
    rcases step_took withdrawn.mirrors stepped with ⟨i, lost, kept, same, -⟩ |
      ⟨n, event, input, d, sends, took⟩
    · exact absurd same (ok.1 i lost kept)
    · exact took.withdrawn release own agreed ok withdrawn
  exact (withdrawn.node i).stock h

/-- A running daemon takes what its client asks. -/
theorem client_step {i : ι} (running : Running net i) (cmd : ClientCmd X) :
    ∃ net', step C net (.act i (.client cmd)) = some net' := by
  simp only [step, Event.isLocal, if_true, act_eq_actRunning running, Daemon.actRunning,
    Option.map_some]
  exact ⟨_, rfl⟩

end Network

/-- An ad that has reached both of two daemons is removed at one after the other. -/
theorem withdrawal_sticks_pair : ∃ ls net₀, NetRun (pair true) AddsOnly ls net₀ ∧
    Stuck (step (pair true)) Handling net₀ ∧
    (∀ i, Reference.sha256 (Reference.aliceEntry "1") ∈
      hashes (reference true) (net₀.node i).store.db) ∧
    ∃ ms net, Run (step (pair true)) (Withdraws Reference.alice
        [hex (Reference.sha256 (Reference.aliceEntry "1"))]) net₀ ms net ∧
      ∀ i, Reference.sha256 (Reference.aliceEntry "1") ∉
        hashes (reference true) (net.node i).store.db := by
  let wanted := [hex (Reference.sha256 (Reference.aliceEntry "1"))]
  let rm : ClientCmd (reference true) := .rm Reference.alice wanted
  obtain ⟨ls, net₀, run, rest, handling, stored⟩ := addFirst_rests
  have running := (synced_of_run rfl pair_canonical run).running
  have own : ∀ i, ∀ doc ∈ (net₀.node i).store.db, Wanted (reference true) wanted doc →
      Reference.alice = authorOf (reference true) doc.data :=
    fun _ _ member _ => (addFirst_only run handling member).2.symm
  obtain ⟨net₁, first⟩ := client_step (C := pair true) (running 0) rm
  have other : net₁.node 1 = net₀.node 1 := by
    rcases step_took (mirrored_of_run run) first with ⟨_, _, _, impossible, -⟩ |
      ⟨n, _, _, _, _, took⟩
    · cases impossible
    · rcases took.label with ⟨same, -, -⟩ | ⟨_, _, same, -, -⟩
      · cases same; exact took.turn.node_other 1 (by decide)
      · cases same
  have goesOn : Running net₁ 1 := by rw [Running, other]; exact running 1
  obtain ⟨net, second⟩ := client_step (C := pair true) goesOn rm
  have asks : ∀ (net : Network (Fin 2)) (i : Fin 2),
      Withdraws Reference.alice wanted net (.act i (.client rm)) := by
    intro net i
    constructor
    · intro j lost kept same
      cases same
    · intro j cmd same
      cases same
      rfl
  have removed := (Run.nil.snoc (asks _ 0) first).snoc (asks _ 1) second
  refine ⟨_, net₀, run, rest, stored, _, net, removed, fun i left => ?_⟩
  refine ((withdrawal_sticks rfl pair_canonical run rest own removed i _).mp left).2 ?_
    (List.mem_singleton_self _)
  have both : ∀ i : Fin 2, i = 0 ∨ i = 1 := by decide
  rcases both i with rfl | rfl <;> simp [rm]

end Piac
