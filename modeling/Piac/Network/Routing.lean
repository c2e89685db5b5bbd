/-
# Network.Routing — every answer finds its peer

A daemon asks back at the address a HASH or a REQ came with. That the address is
in its peer list is checked nowhere; it holds because a sender introduces itself
first: every HASH and every REQ on a link either goes to a daemon that knows the
sender, or has a PEER naming the sender before it (`Routed.greeted`). The invariant
survives any order of steps, and also a restart of a daemon whose command line
names everybody that knows it (`Remembered`): the others do not send their PEER
again.
-/
import Piac.Network.Discovery

namespace Piac

set_option autoImplicit false

open Piac.Theory.CppString Piac.Theory.Transition Piac.Theory.MessagePassing

universe u

variable {X : Platform} {ι : Type u}

/-- A PEER that names the address. -/
def Greets (addr : Bytes) : PeerMsg → Prop
  | .peer addrs => addr ∈ addrs
  | _ => False

/-- What makes the receiver write to the sender. -/
def AsksBack : PeerMsg → Prop
  | .hash _ _ | .req _ _ => True
  | _ => False

/-- A message that carries its sender carries this one. -/
def SentBy (addr : Bytes) : PeerMsg → Prop
  | .hash sender _ => sender = addr
  | .req sender _ => sender = addr
  | _ => True

/-- What a daemon sends goes to its peers, under its own address; it asks back only
between the broadcast of its peers and the poll. -/
theorem Acts.sent {p2pPort : Nat} {d d' : Daemon} {event : Event X} {sends : Sends}
    (acts : Acts p2pPort d event d' sends) {a : Bytes} {m : PeerMsg} (sent : (a, m) ∈ sends) :
    a ∈ d.p2p.myPeers ∧ SentBy (localhost p2pPort) m ∧
      (AsksBack m → d.phase = .bcastHashes ∨ d.phase = .sendDbRequests) := by
  cases acts with
  | bcastPeers _ _ =>
      obtain ⟨b, known, same⟩ := List.mem_map.mp sent
      cases same
      exact ⟨known, trivial, False.elim⟩
  | bcastHashes here _ =>
      obtain ⟨b, known, same⟩ := List.mem_map.mp sent
      cases same
      exact ⟨known, rfl, fun _ => .inl here⟩
  | sendDbRequests here _ known =>
      obtain ⟨r, member, same⟩ := List.mem_map.mp sent
      cases same
      exact ⟨known r member, rfl, fun _ => .inr here⟩
  | answerPut _ _ _ known =>
      cases List.mem_singleton.mp sent
      exact ⟨known, trivial, False.elim⟩
  | _ => cases sent

/-- The peers are broadcast before anything else: with the flag up the loop stands
before the broadcast or right after an answer. -/
def FlagEarly (d : Daemon) : Prop :=
  d.p2p.toBcastPeers = true → d.phase = .bcastPeers ∨ d.phase = .answered

theorem Acts.flagEarly {p2pPort : Nat} {d d' : Daemon} {event : Event X} {sends : Sends}
    (acts : Acts p2pPort d event d' sends) (early : FlagEarly d) (running : d'.fault = none) :
    FlagEarly d' := by
  intro up
  cases acts with
  | move moves =>
      have before := early up
      cases moves with
      | bcastPeers _ down => rw [down] at up; cases up
      | bcastHashes here _ => rw [here] at before; simp at before
      | sendDbRequests here _ => rw [here] at before; simp at before
      | pass _ => exact .inl rfl
  | bcastPeers _ _ => cases up
  | bcastHashes here _ =>
      have before := early up
      rw [here] at before
      simp at before
  | sendDbRequests here _ _ =>
      have before := early up
      rw [here] at before
      simp at before
  | recvPeer _ _ => exact .inr rfl
  | recvHash _ _ => exact .inr rfl
  | recvReq _ _ => exact .inr rfl
  | recvDoc _ _ => exact .inr rfl
  | answerPut _ _ _ _ => exact .inl rfl
  | answerNew _ _ => exact .inl rfl
  | get _ _ => exact early up
  | insKnown _ _ => exact early up
  | insNew _ _ _ => exact early up
  | client _ => exact early up
  | fault _ failed => rw [running] at failed; cases failed

/-! ## The invariant -/

/-- `j` knows `i`, or will before it reads what asks it to write to `i`. -/
def Greeted (C : Config X ι) (net : Network ι) (i j : ι) : Prop :=
  C.address i ∈ (net.node j).p2p.myPeers ∨
    Heralded (Greets (C.address i)) AsksBack (net.link i j)

/-- `j` knows `i` or is about to hear of it. -/
def Introduced (C : Config X ι) (net : Network ι) (i j : ι) : Prop :=
  C.address i ∈ (net.node j).p2p.myPeers ∨ ∃ m ∈ net.link i j, Greets (C.address i) m

/-- The addresses a daemon holds for an answer are on its peer list. -/
structure Answerable (d : Daemon) : Prop where
  requests : ∀ r ∈ d.p2p.dbRequests, r.1 ∈ d.p2p.myPeers
  gets : ∀ addr wanted, .get addr wanted ∈ d.toDb → addr ∈ d.p2p.myPeers
  puts : ∀ addr docs, .put addr docs ∈ d.toP2p → addr ∈ d.p2p.myPeers
  noMapAt : d.fault ≠ some .mapAt

structure Routed (C : Config X ι) (net : Network ι) : Prop where
  foreign : ∀ i, C.address i ∉ (net.node i).p2p.myPeers
  selfless : ∀ i, net.link i i = []
  greeted : ∀ i j, Running net j → Greeted C net i j
  introduced : ∀ i j, Running net j → Knows C net i j →
    (net.node i).p2p.toBcastPeers = true ∨ Introduced C net i j
  early : ∀ i, Running net i → FlagEarly (net.node i)
  senders : ∀ i j, ∀ m ∈ net.link i j, SentBy (C.address i) m
  answerable : ∀ i, Answerable (net.node i)

theorem Answerable.start (X : Platform) (peers : List Bytes) (db : Database) :
    Answerable (.start X peers db) where
  requests r member := by cases member
  gets _ _ member := by cases member
  puts _ _ member := by cases member
  noMapAt := nofun

theorem routed_init (C : Config X ι) : Routed C C.init where
  foreign := C.address_notMem_peers
  selfless _ := rfl
  greeted _ _ _ := .inr trivial
  introduced _ _ _ _ := .inl rfl
  early _ _ _ := .inl rfl
  senders _ _ m member := by cases member
  answerable i := .start X _ _

/-- What an event does to the addresses held, when the message it answers is from a peer. -/
theorem Acts.answerable {p2pPort : Nat} {d d' : Daemon} {event : Event X} {sends : Sends}
    (acts : Acts p2pPort d event d' sends) (running : d.fault = none) (answerable : Answerable d)
    (hash : ∀ sender wanted, event = .answerP2p (.hash sender wanted) →
      (∃ h ∈ wanted, h ∉ d.store.myHashes) → sender ∈ d.p2p.myPeers)
    (req : ∀ addr wanted, event = .answerP2p (.req addr wanted) → addr ∈ d.p2p.myPeers) :
    Answerable d' := by
  have mono : ∀ {a}, a ∈ d.p2p.myPeers → a ∈ d'.p2p.myPeers := acts.peers_mono
  have noFault : d.fault ≠ some .mapAt := by rw [running]; exact nofun
  obtain ⟨requests, gets, puts, -⟩ := answerable
  cases acts with
  | move _ => exact ⟨requests, gets, puts, noFault⟩
  | bcastPeers _ _ => exact ⟨requests, gets, puts, noFault⟩
  | bcastHashes _ _ => exact ⟨requests, gets, puts, noFault⟩
  | sendDbRequests _ _ _ => exact ⟨nofun, gets, puts, noFault⟩
  | recvPeer _ learned =>
      exact ⟨fun r member => mono (requests r (learned.requests ▸ member)),
        fun addr wanted member => mono (gets addr wanted member),
        fun addr docs member => mono (puts addr docs member), noFault⟩
  | recvHash _ noted =>
      refine ⟨fun r member => mono ?_, fun addr wanted member => mono (gets addr wanted member),
        fun addr docs member => mono (puts addr docs member), noFault⟩
      rcases noted.mem r member with old | ⟨same, new, -⟩
      · exact requests r old
      · exact same ▸ hash _ _ rfl new
  | recvReq _ _ =>
      refine ⟨requests, fun addr wanted member => ?_, puts, noFault⟩
      rcases List.mem_append.mp member with old | new
      · exact gets addr wanted old
      · cases List.mem_singleton.mp new
        exact req _ _ rfl
  | recvDoc _ _ =>
      refine ⟨requests, fun addr wanted member => ?_, puts, noFault⟩
      rcases List.mem_append.mp member with old | new
      · exact gets addr wanted old
      · cases List.mem_singleton.mp new
  | answerPut _ queue _ _ =>
      exact ⟨requests, gets, fun addr docs member => puts addr docs (by simp [queue, member]), noFault⟩
  | answerNew _ queue =>
      exact ⟨requests, gets, fun addr docs member => puts addr docs (by simp [queue, member]), noFault⟩
  | get queue _ =>
      refine ⟨requests, fun addr wanted member => gets addr wanted (by simp [queue, member]),
        fun addr docs member => ?_, noFault⟩
      rcases List.mem_append.mp member with old | new
      · exact puts addr docs old
      · cases List.mem_singleton.mp new
        exact gets _ _ (by rw [queue]; exact List.mem_cons_self)
  | insKnown queue _ =>
      exact ⟨requests, fun addr wanted member => gets addr wanted (by simp [queue, member]), puts,
        noFault⟩
  | insNew queue _ _ =>
      exact ⟨requests, fun addr wanted member => gets addr wanted (by simp [queue, member]),
        fun addr docs member => puts addr docs (by simpa using member), noFault⟩
  | client _ =>
      exact ⟨requests, gets, fun addr docs member => puts addr docs (by simpa using member), noFault⟩
  | fault why failed p2p _ toDb toP2p =>
      rw [p2p] at mono
      refine ⟨by rw [p2p]; exact requests,
        fun addr wanted member => by rw [p2p]; exact gets addr wanted (toDb.mem member),
        fun addr docs member => by rw [p2p]; exact puts addr docs (toP2p.mem member), ?_⟩
      rw [failed]
      -- the two ways to a missing key are excluded
      cases why with
      | request _ _ member missing => exact absurd (requests _ member) missing
      | reply member missing => exact absurd (puts _ _ member) missing
      | peerOp _ reason => rcases reason.kind with rfl | ⟨site, rfl⟩ <;> exact nofun
      | _ => exact nofun

variable [DecidableEq ι]

namespace Took

variable {C : Config X ι} {net net' : Network ι} {l : Label X ι} {n : ι} {event : Event X}
  {input : Option (ι × PeerMsg)} {d : Daemon} {sends : Sends}

/-- The sender of a HASH or a REQ that is answered is on the list. -/
theorem sender_known (took : Took C net net' l n event input d sends) (routed : Routed C net)
    {m : PeerMsg} (answered : event = .answerP2p m) (asks : AsksBack m) :
    ∃ src, SentBy (C.address src) m ∧ C.address src ∈ (net.node n).p2p.myPeers := by
  subst answered
  obtain ⟨src, rfl, -, inFlight⟩ := took.source
  refine ⟨src, routed.senders src n m inFlight, ?_⟩
  rcases routed.greeted src n took.running with known | heralded
  · exact known
  · -- nothing stands before the message that is answered
    obtain ⟨rest, before, -⟩ := took.turn.link src n
    rw [before, received, if_pos ⟨rfl, rfl⟩] at heralded
    rcases heralded with greets | ⟨plain, -⟩
    · cases m <;> first | exact absurd greets id | exact absurd asks id
    · exact absurd asks plain

/-- A greeting in flight arrives or stays in flight. -/
theorem introduced_mono (took : Took C net net' l n event input d sends) {i j : ι}
    (apart : i ≠ j) (running : Running net' j) (introduced : Introduced C net i j) :
    Introduced C net' i j := by
  rcases introduced with known | ⟨m, inFlight, greets⟩
  · exact .inl (took.peers_mono known)
  · rcases took.mem_kept inFlight with kept | ⟨rfl, rfl, -⟩
    · exact .inr ⟨m, kept, greets⟩
    · cases m with
      | peer addrs =>
          have learned := took.acts.learned (by rw [← took.turn.node_self]; exact running)
          refine .inl ?_
          rw [took.turn.node_self]
          exact (learned.mem _).mpr (.inr ⟨greets, fun same => apart (C.address_injective same)⟩)
      | _ => cases greets

theorem greeted (took : Took C net net' l n event input d sends) (routed : Routed C net) {i j : ι}
    (running : Running net' j) : Greeted C net' i j := by
  have before := took.running_before running
  obtain ⟨rest, old, new⟩ := took.turn.link i j
  rcases routed.greeted i j before with known | heralded
  · exact .inl (took.peers_mono known)
  -- what is left of the link is heralded, or the greeting is answered now
  have left : C.address i ∈ (net'.node j).p2p.myPeers ∨
      Heralded (Greets (C.address i)) AsksBack rest := by
    rw [old] at heralded
    unfold received at heralded
    split at heralded
    · exact .inr heralded
    · rename_i src m
      split at heralded
      · rename_i here
        obtain ⟨rfl, rfl⟩ := here
        rcases heralded with greets | ⟨-, heralded⟩
        · have apart : i ≠ j := by
            rintro rfl
            have inFlight := took.turn.mem_input
            rw [routed.selfless i] at inFlight
            cases inFlight
          cases took.input_eq
          cases m with
          | peer addrs =>
              have learned := took.acts.learned (by rw [← took.turn.node_self]; exact running)
              refine .inl ?_
              rw [took.turn.node_self]
              exact (learned.mem _).mpr
                (.inr ⟨greets, fun same => apart (C.address_injective same)⟩)
          | _ => cases greets
        · exact .inr heralded
      · exact .inr heralded
  rcases left with known | left
  · exact .inl known
  unfold Greeted
  rw [new]
  by_cases sender : i = n
  · subst sender
    simp only [posted, if_true]
    -- a daemon that asks back has introduced itself
    by_cases asks : ∃ m ∈ route C.address sends j, AsksBack m
    · obtain ⟨m, sent, asksBack⟩ := asks
      obtain ⟨known, -, phase⟩ := took.acts.sent (mem_route.mp sent)
      have down : ¬ (net.node i).p2p.toBcastPeers = true := by
        intro up
        rcases routed.early i took.running up with h | h <;>
          rcases phase asksBack with h' | h' <;> rw [h] at h' <;> cases h'
      rcases (routed.introduced i j before known).resolve_left down with known' | ⟨g, inFlight, greets⟩
      · exact .inl (took.peers_mono known')
      · rw [old] at inFlight
        rcases List.mem_append.mp inFlight with taken | inRest
        · -- a daemon does not answer its own message while it sends to another
          have self : j = i := by
            unfold received at taken
            split at taken
            · cases taken
            · split at taken
              · rename_i here; exact here.2
              · cases taken
          subst self
          exact absurd known (routed.foreign j)
        · exact .inr (heralded_of_greeting left ⟨g, inRest, greets⟩)
    · exact .inr (left.append (heralded_of_plain fun m sent => .inr fun a => asks ⟨m, sent, a⟩))
  · simp only [posted, if_neg sender, List.append_nil]
    exact .inr left

theorem introduced (took : Took C net net' l n event input d sends) (routed : Routed C net)
    {i j : ι} (running : Running net' j) (knows : Knows C net' i j) :
    (net'.node i).p2p.toBcastPeers = true ∨ Introduced C net' i j := by
  have before := took.running_before running
  by_cases here : i = n
  · subst here
    unfold Knows at knows
    rw [took.turn.node_self] at knows ⊢
    have carry : C.address j ∈ (net.node i).p2p.myPeers →
        (net.node i).p2p.toBcastPeers = true ∨ Introduced C net' i j := fun known =>
      (routed.introduced i j before known).imp_right
        (took.introduced_mono (by rintro rfl; exact routed.foreign i known) running)
    rcases took.acts.peers with ⟨same, flag⟩ | ⟨same, sent⟩ | ⟨addrs, -, learned⟩
    · rw [flag]
      exact carry (same ▸ knows)
    · exact .inr (.inr ⟨_, took.mem_sent (sent _ (same ▸ knows)), List.mem_cons_self⟩)
    · rcases learned.flags with same | ⟨up, -⟩
      · rw [same]
        exact carry (same ▸ knows)
      · exact .inl up
  · unfold Knows at knows
    rw [took.turn.node_other i here] at knows ⊢
    exact (routed.introduced i j before knows).imp_right
      (took.introduced_mono (by rintro rfl; exact routed.foreign i knows) running)

theorem routed (took : Took C net net' l n event input d sends) (routed : Routed C net) :
    Routed C net' where
  foreign i := (took.peered_foreign routed.foreign) i
  selfless i := by
    refine List.eq_nil_iff_forall_not_mem.mpr fun m member => ?_
    rcases took.mem_new member with old | ⟨rfl, sent⟩
    · rw [routed.selfless i] at old
      cases old
    · exact routed.foreign i (took.acts.sent sent).1
  greeted _ _ running := took.greeted routed running
  introduced _ _ running knows := took.introduced routed running knows
  early i running := by
    by_cases here : i = n
    · subst here
      unfold Running at running
      rw [took.turn.node_self] at running ⊢
      exact took.acts.flagEarly (routed.early i took.running) running
    · unfold Running at running
      rw [took.turn.node_other i here] at running ⊢
      exact routed.early i running
  senders i j m member := by
    rcases took.mem_new member with old | ⟨rfl, sent⟩
    · exact routed.senders i j m old
    · exact (took.acts.sent sent).2.1
  answerable i := by
    by_cases here : i = n
    · subst here
      rw [took.turn.node_self]
      refine took.acts.answerable took.running (routed.answerable i) ?_ ?_
      · intro sender wanted answered _
        obtain ⟨src, same, known⟩ := took.sender_known routed answered trivial
        exact same ▸ known
      · intro addr wanted answered
        obtain ⟨src, same, known⟩ := took.sender_known routed answered trivial
        exact same ▸ known
    · rw [took.turn.node_other i here]
      exact routed.answerable i

end Took

/-! ## Restarts -/

/-- Whoever knows a daemon when it is restarted is on that daemon's command line (or
listens on a default port below its own). -/
def Remembered (C : Config X ι) (net : Network ι) (l : Label X ι) : Prop :=
  ∀ k lost kept, l = .restart k lost kept → ∀ a, Knows C net a k → C.address a ∈ C.peers k

instance [Fintype ι] (C : Config X ι) (net : Network ι) (l : Label X ι) :
    Decidable (Remembered C net l) :=
  match l with
  | .act _ _ => .isTrue nofun
  | .deliver _ _ => .isTrue nofun
  | .restart k lost kept =>
      decidable_of_iff (∀ a, Knows C net a k → C.address a ∈ C.peers k)
        ⟨fun all _ _ _ same => by cases same; exact all, fun remembered => remembered k lost kept rfl⟩

theorem routed_restarted {C : Config X ι} {net : Network ι} {k : ι} {lost kept : ι → Nat}
    (routed : Routed C net) (remembered : ∀ a, Knows C net a k → C.address a ∈ C.peers k) :
    Routed C (restarted C net k lost kept) where
  foreign i := by
    by_cases here : i = k
    · subst here; rw [restarted_self]; exact C.address_notMem_peers i
    · rw [restarted_other C net lost kept here]; exact routed.foreign i
  selfless i := by
    refine List.eq_nil_iff_forall_not_mem.mpr fun m member => ?_
    have old := mem_restarted_link member
    rw [routed.selfless i] at old
    cases old
  greeted i j running := by
    by_cases here : j = k
    · subst here
      unfold Greeted
      rw [restarted_self]
      by_cases known : C.address j ∈ (net.node i).p2p.myPeers
      · exact .inl (remembered i known)
      · right
        simp only [restarted, if_true, if_neg known]
        trivial
    · unfold Running at running
      unfold Greeted
      rw [restarted_other C net lost kept here] at running ⊢
      refine (routed.greeted i j running).imp_right fun heralded => ?_
      simp only [restarted, if_neg here]
      split
      · rename_i same
        subst same
        exact heralded.take _
      · exact heralded
  introduced i j running knows := by
    by_cases here : i = k
    · subst here
      rw [restarted_self]
      exact .inl rfl
    · unfold Knows at knows
      unfold Introduced
      rw [restarted_other C net lost kept here] at knows ⊢
      by_cases there : j = k
      · subst there
        rw [restarted_self]
        exact .inr (.inl (remembered i knows))
      · unfold Running at running
        rw [restarted_other C net lost kept there] at running ⊢
        simp only [restarted, if_neg here, if_neg there]
        exact routed.introduced i j running knows
  early i running := by
    by_cases here : i = k
    · subst here; rw [restarted_self]; exact fun _ => .inl rfl
    · unfold Running at running
      rw [restarted_other C net lost kept here] at running ⊢
      exact routed.early i running
  senders i j m member := routed.senders i j m (mem_restarted_link member)
  answerable i := by
    by_cases here : i = k
    · subst here; rw [restarted_self]; exact .start X _ _
    · rw [restarted_other C net lost kept here]; exact routed.answerable i

theorem routed_of_run {C : Config X ι} {ls : List (Label X ι)} {net : Network ι}
    (run : NetRun C (Remembered C) ls net) : Routed C net := by
  have both : (∀ i, Mirrors X (net.node i).store) ∧ Routed C net := by
    refine @Run.invariant _ _ (step C) (Remembered C)
      (fun net => (∀ i, Mirrors X (net.node i).store) ∧ Routed C net) _ _ _ run
      ⟨mirrored_init C, routed_init C⟩ ?_
    rintro net l net' ⟨mirrored, routed⟩ remembered stepped
    refine ⟨mirrored_step mirrored stepped, ?_⟩
    rcases step_took mirrored stepped with ⟨k, lost, kept, same, rfl⟩ |
      ⟨n, event, input, d, sends, took⟩
    · exact routed_restarted routed (remembered k lost kept same)
    · exact took.routed routed
  exact both.2

/-- **Every answer is routable**, as long as whoever knows a restarted daemon is among
the peers it starts with: in every state of such a run the address of every request, of
every GET and of every PUT is on the peer list, and no daemon has ended in a missing
key. -/
theorem answers_routable {C : Config X ι} {ls : List (Label X ι)} {net : Network ι}
    (run : NetRun C (Remembered C) ls net) (i : ι) :
    (∀ r ∈ (net.node i).p2p.dbRequests, r.1 ∈ (net.node i).p2p.myPeers) ∧
    (∀ addr docs, .put addr docs ∈ (net.node i).toP2p → addr ∈ (net.node i).p2p.myPeers) ∧
    (net.node i).fault ≠ some .mapAt :=
  have answerable := (routed_of_run run).answerable i
  ⟨answerable.requests, answerable.puts, answerable.noMapAt⟩

/-- It applies when the second of two daemons, which starts with the first as its peer, is
restarted and an ad is synchronised. -/
theorem answers_routable_pair : ∃ ls net, NetRun (pair true) (Remembered (pair true)) ls net ∧
    (net.node 1).p2p.dbRequests ≠ [] ∧
    (∀ r ∈ (net.node 1).p2p.dbRequests, r.1 ∈ (net.node 1).p2p.myPeers) ∧
    (net.node 1).fault ≠ some .mapAt := by
  let ls : List (Label (reference true) (Fin 2)) :=
    List.flatten [introduction, [.restart 1 (fun _ => 0) (fun _ => 0)], round 1,
      [.act 0 (.client (.add Reference.alice [Reference.ad 1]))], answerDb 0, [.deliver 0 1]]
  have run : NetRun (pair true) (Remembered (pair true)) ls
    ((exec (guarded (step (pair true)) (Remembered (pair true))) (pair true).init ls).get
      (by decide +kernel)) := .checked _
  have routable := answers_routable run 1
  exact ⟨ls, _, run, by decide +kernel, routable.1, routable.2.2⟩

/-- The first of two daemons, which starts without peers, is restarted. The second still
announces its ads to it, and the first cannot request what it does not know. -/
theorem restart_unroutable : ∃ ls net, NetRun (pair true) (fun _ _ => True) ls net ∧
    (net.node 0).fault = some .mapAt := by
  let ls : List (Label (reference true) (Fin 2)) :=
    List.flatten [introduction, [.restart 0 (fun _ => 0) (fun _ => 0)], round 0,
      [.act 1 (.client (.add Reference.alice [Reference.ad 1]))], answerDb 1, answer 1 0]
  exact ⟨ls, _, .computed (by decide +kernel) fun _ _ _ => trivial, by decide +kernel⟩

end Piac
