/-
# Network.Sync — the databases reach their union

When a daemon knows another, every hash it has is at the other, or is still to be
announced, asked for or delivered: `Pending` lists the nine places where the matter
of one hash can stand between two daemons, in the order in which it goes through
them. A step moves it on and never drops it (`Took.pending`). In a quiet network all
nine are empty, so the daemons of a connected component hold the same hashes; and
they hold what was stored or added in the component, because an entry only travels
between daemons that know each other (`quiet_synchronised`).
-/
import Piac.Network.Entries

namespace Piac

set_option autoImplicit false

open Piac.Theory.CppString Piac.Theory.Transition Piac.Theory.MessagePassing
  Piac.Theory.TermStore

universe u

variable {X : Platform} {ι : Type u}

/-! ## One event and the matter of a hash -/

section Event

variable {p2pPort : Nat} {d d' : Daemon} {event : Event X} {sends : Sends}

theorem Acts.flag_kept (acts : Acts p2pPort d event d' sends) (up : d.p2p.toBcastHashes = true) :
    d'.p2p.toBcastHashes = true ∨
      ∀ a ∈ d.p2p.myPeers, (a, .hash (localhost p2pPort) d.store.myHashes) ∈ sends := by
  cases acts with
  | bcastHashes _ _ => exact .inr fun a known => List.mem_map_of_mem known
  | recvPeer _ learned =>
      left
      rcases learned.flags with same | ⟨-, up', -⟩
      · exact same ▸ up
      · exact up'
  | recvHash _ noted => exact .inl (noted.hashesFlag.trans up)
  | answerNew _ _ => exact .inl rfl
  | fault _ _ p2p => exact .inl (p2p ▸ up)
  | _ => exact .inl up

theorem Acts.new_kept (acts : Acts p2pPort d event d' sends) (running : d'.fault = none)
    (note : .new ∈ d.toP2p) : .new ∈ d'.toP2p ∨ d'.p2p.toBcastHashes = true := by
  cases acts with
  | answerPut _ queue _ _ =>
      rw [queue] at note
      exact .inl (by simpa using note)
  | answerNew _ _ => exact .inr rfl
  | get _ _ => exact .inl (List.mem_append_left _ note)
  | insNew _ _ _ => exact .inl (List.mem_append_left _ note)
  | client _ => exact .inl (List.mem_append_left _ note)
  | fault _ failed => rw [running] at failed; cases failed
  | _ => exact .inl note

theorem Acts.hash_answered {sender : Bytes} {wanted : List Bytes}
    (acts : Acts p2pPort d (.answerP2p (.hash sender wanted) : Event X) d' sends)
    (running : d'.fault = none) {h : Bytes} (member : h ∈ wanted) :
    h ∈ d.store.myHashes ∨ Requested d'.p2p.dbRequests sender h := by
  cases acts with
  | move moves => cases moves
  | recvHash _ noted =>
      by_cases known : h ∈ d.store.myHashes
      · exact .inl known
      · exact .inr ((noted.requested sender h).mpr (.inr ⟨rfl, member, known⟩))
  | fault _ failed => rw [running] at failed; cases failed

theorem Acts.request_kept (acts : Acts p2pPort d event d' sends) {a h : Bytes}
    (requested : Requested d.p2p.dbRequests a h) :
    Requested d'.p2p.dbRequests a h ∨
      ∃ wanted, (a, .req (localhost p2pPort) wanted) ∈ sends ∧ h ∈ wanted := by
  cases acts with
  | sendDbRequests _ _ _ =>
      obtain ⟨r, member, rfl, inSet⟩ := requested
      exact .inr ⟨r.2, List.mem_map.mpr ⟨r, member, rfl⟩, inSet⟩
  | recvPeer _ learned => exact .inl (learned.requests ▸ requested)
  | recvHash _ noted => exact .inl ((noted.requested a h).mpr (.inl requested))
  | fault _ _ p2p => exact .inl (p2p ▸ requested)
  | _ => exact .inl requested

theorem Acts.req_answered {addr : Bytes} {wanted : List Bytes}
    (acts : Acts p2pPort d (.answerP2p (.req addr wanted) : Event X) d' sends)
    (running : d'.fault = none) : .get addr wanted ∈ d'.toDb := by
  cases acts with
  | move moves => cases moves
  | recvReq _ _ => exact List.mem_append_right _ List.mem_cons_self
  | fault _ failed => rw [running] at failed; cases failed

theorem Acts.get_kept (acts : Acts p2pPort d event d' sends) (running : d'.fault = none)
    {addr h : Bytes} {wanted : List Bytes} (asked : .get addr wanted ∈ d.toDb)
    (member : h ∈ wanted) (stored : h ∈ hashes X d.store.db) :
    .get addr wanted ∈ d'.toDb ∨
      ∃ docs, .put addr docs ∈ d'.toP2p ∧ ∃ e ∈ docs, X.sha256 e = h := by
  cases acts with
  | recvReq _ _ => exact .inl (List.mem_append_left _ asked)
  | recvDoc _ _ => exact .inl (List.mem_append_left _ asked)
  | get queue _ =>
      rw [queue] at asked
      rcases List.mem_cons.mp asked with same | later
      · cases same
        refine .inr ⟨_, List.mem_append_right _ List.mem_cons_self, ?_⟩
        obtain ⟨e, found⟩ := Option.isSome_iff_exists.mp (entryUnder_isSome.mpr stored)
        refine ⟨e, List.mem_filterMap.mpr ⟨h, member, found⟩, ?_⟩
        obtain ⟨doc, first, rfl⟩ := Option.map_eq_some_iff.mp found
        simpa using List.find?_some first
      · exact .inl later
  | insKnown queue _ => rw [queue] at asked; exact .inl (by simpa using asked)
  | insNew queue _ _ => rw [queue] at asked; exact .inl (by simpa using asked)
  | fault _ failed => rw [running] at failed; cases failed
  | _ => exact .inl asked

theorem Acts.put_kept (acts : Acts p2pPort d event d' sends) (running : d'.fault = none)
    {addr : Bytes} {docs : List Bytes} (reply : .put addr docs ∈ d.toP2p) :
    .put addr docs ∈ d'.toP2p ∨ (addr, .doc docs) ∈ sends := by
  cases acts with
  | answerPut _ queue _ _ =>
      rw [queue] at reply
      rcases List.mem_cons.mp reply with same | later
      · cases same; exact .inr List.mem_cons_self
      · exact .inl later
  | answerNew _ queue => rw [queue] at reply; exact .inl (by simpa using reply)
  | get _ _ => exact .inl (List.mem_append_left _ reply)
  | insNew _ _ _ => exact .inl (List.mem_append_left _ reply)
  | client _ => exact .inl (List.mem_append_left _ reply)
  | fault _ failed => rw [running] at failed; cases failed
  | _ => exact .inl reply

theorem Acts.doc_answered {docs : List Bytes}
    (acts : Acts p2pPort d (.answerP2p (.doc docs) : Event X) d' sends)
    (running : d'.fault = none) {e : Bytes} (member : e ∈ docs) :
    X.sha256 e ∈ d.store.myHashes ∨ ∃ docs', .ins docs' ∈ d'.toDb ∧ e ∈ docs' := by
  cases acts with
  | move moves => cases moves
  | recvDoc _ _ =>
      by_cases known : X.sha256 e ∈ d.store.myHashes
      · exact .inl known
      · exact .inr ⟨_, List.mem_append_right _ List.mem_cons_self,
          List.mem_filter.mpr ⟨member, by simpa using known⟩⟩
  | fault _ failed => rw [running] at failed; cases failed

theorem Acts.ins_kept (acts : Acts p2pPort d event d' sends) (running : d'.fault = none)
    (mirrors : Mirrors X d.store) {docs : List Bytes} (asked : .ins docs ∈ d.toDb) {e : Bytes}
    (member : e ∈ docs) (canonical : Canonical X e) :
    .ins docs ∈ d'.toDb ∨ X.sha256 e ∈ d'.store.myHashes := by
  cases acts with
  | recvReq _ _ => exact .inl (List.mem_append_left _ asked)
  | recvDoc _ _ => exact .inl (List.mem_append_left _ asked)
  | get queue _ => rw [queue] at asked; exact .inl (by simpa using asked)
  | insKnown queue nothing =>
      rw [queue] at asked
      rcases List.mem_cons.mp asked with same | later
      · cases same
        right
        by_contra unknown
        have new : e ∈ unknownDocs X d.store.myHashes docs :=
          List.mem_filter.mpr ⟨member, by simpa using unknown⟩
        rw [nothing] at new
        cases new
      · exact .inl later
  | insNew queue _ done =>
      rw [queue] at asked
      rcases List.mem_cons.mp asked with same | later
      · cases same
        right
        have mirrors' := mirrors.dbPeerOp done
        rcases dbPeerOp_ins mirrors done with ⟨_, _, impossible⟩ | ⟨-, -, -, stored⟩
        · cases impossible
        refine (mirrors'.same _).mpr ((stored _).mpr ?_)
        by_cases known : X.sha256 e ∈ d.store.myHashes
        · exact .inl ((mirrors.same _).mp known)
        · exact .inr ⟨e, List.mem_filter.mpr ⟨member, by simpa using known⟩, e, canonical, rfl⟩
      · exact .inl later
  | fault _ failed => rw [running] at failed; cases failed
  | _ => exact .inl asked

/-- The hashes of a daemon change only with a note to the p2p thread; they only grow
unless a client removes some. -/
theorem Acts.hashes (acts : Acts p2pPort d event d' sends) (mirrors : Mirrors X d.store) :
    d'.store.myHashes = d.store.myHashes ∨ (.new ∈ d'.toP2p ∧
      ((∀ author toDelete, event ≠ .client (.rm author toDelete)) →
        ∀ h ∈ d.store.myHashes, h ∈ d'.store.myHashes)) := by
  cases acts with
  | insNew _ _ done =>
      refine .inr ⟨List.mem_append_right _ List.mem_cons_self, fun _ h known => ?_⟩
      have mirrors' := mirrors.dbPeerOp done
      rcases dbPeerOp_ins mirrors done with ⟨_, _, impossible⟩ | ⟨-, -, -, stored⟩
      · cases impossible
      · exact (mirrors'.same _).mpr ((stored _).mpr (.inl ((mirrors.same _).mp known)))
  | client done =>
      rename_i cmd store
      refine .inr ⟨List.mem_append_right _ List.mem_cons_self, fun adds h known => ?_⟩
      cases cmd with
      | add author docs =>
          obtain ⟨mirrors', -, stored⟩ := clientOp_add mirrors done
          exact (mirrors'.same _).mpr ((stored _).mpr (.inl ((mirrors.same _).mp known)))
      | rm author toDelete => exact absurd rfl (adds author toDelete)
  | fault _ _ _ store => exact .inl (by rw [store])
  | _ => exact .inl rfl

end Event

/-! ## Between two daemons -/

/-- Where the matter of one hash can stand between `i`, which has it, and `j`. -/
inductive Pending (C : Config X ι) (net : Network ι) (i j : ι) (h : Bytes) : Prop where
  | note : .new ∈ (net.node i).toP2p → Pending C net i j h
  | flag : (net.node i).p2p.toBcastHashes = true → Pending C net i j h
  | hash {wanted : List Bytes} :
      .hash (C.address i) wanted ∈ net.link i j → h ∈ wanted → Pending C net i j h
  | request : Requested (net.node j).p2p.dbRequests (C.address i) h → Pending C net i j h
  | req {wanted : List Bytes} :
      .req (C.address j) wanted ∈ net.link j i → h ∈ wanted → Pending C net i j h
  | get {wanted : List Bytes} :
      .get (C.address j) wanted ∈ (net.node i).toDb → h ∈ wanted → Pending C net i j h
  | put {docs : List Bytes} {e : Bytes} :
      .put (C.address j) docs ∈ (net.node i).toP2p → e ∈ docs → X.sha256 e = h →
      Pending C net i j h
  | doc {docs : List Bytes} {e : Bytes} :
      .doc docs ∈ net.link i j → e ∈ docs → X.sha256 e = h → Pending C net i j h
  | ins {docs : List Bytes} {e : Bytes} :
      .ins docs ∈ (net.node j).toDb → e ∈ docs → X.sha256 e = h → Pending C net i j h

/-- `j` has the hash, or it is pending. -/
def Covered (C : Config X ι) (net : Network ι) (i j : ι) (h : Bytes) : Prop :=
  h ∈ (net.node j).store.myHashes ∨ Pending C net i j h

/-- There are requests only while the request flag is up. -/
def Flagged (d : Daemon) : Prop :=
  d.p2p.toSendDbRequests = false → ∀ a h, ¬ Requested d.p2p.dbRequests a h

theorem Acts.flagged {p2pPort : Nat} {d d' : Daemon} {event : Event X} {sends : Sends}
    (acts : Acts p2pPort d event d' sends) (flagged : Flagged d) : Flagged d' := by
  cases acts with
  | sendDbRequests _ _ _ => exact fun _ a h requested => by simp [Requested] at requested
  | recvPeer _ learned =>
      intro down a h requested
      exact flagged (learned.sendFlag ▸ down) a h (learned.requests ▸ requested)
  | recvHash _ noted =>
      intro down a h requested
      have raised : ¬ _ := fun up => by rw [noted.sendFlag.mpr up] at down; cases down
      rw [not_or] at raised
      rcases (noted.requested a h).mp requested with old | ⟨-, member, unknown⟩
      · exact flagged (Bool.eq_false_of_not_eq_true raised.1) a h old
      · exact raised.2 ⟨h, member, unknown⟩
  | fault _ _ p2p => unfold Flagged; rw [p2p]; exact flagged
  | _ => exact flagged

variable [DecidableEq ι]

namespace Took

variable {C : Config X ι} {net net' : Network ι} {l : Label X ι} {n : ι} {event : Event X}
  {input : Option (ι × PeerMsg)} {d : Daemon} {sends : Sends}

/-- Something at a daemon is still there after a step, or it is the daemon that took
the turn, and something else came of it. -/
theorem at_node (took : Took C net net' l n event input d sends) (P : Daemon → Prop) {Q : Prop}
    {i : ι} (before : P (net.node i)) (turned : i = n → P d ∨ Q) : P (net'.node i) ∨ Q := by
  by_cases here : i = n
  · subst here
    rw [took.turn.node_self]
    exact turned rfl
  · rw [took.turn.node_other i here]
    exact .inl before

theorem hashes_mono (took : Took C net net' l n event input d sends)
    (mirrored : ∀ i, Mirrors X (net.node i).store)
    (adds : ∀ author toDelete, event ≠ .client (.rm author toDelete)) {i : ι} {h : Bytes}
    (known : h ∈ (net.node i).store.myHashes) : h ∈ (net'.node i).store.myHashes := by
  by_cases here : i = n
  · subst here
    rw [took.turn.node_self]
    rcases took.acts.hashes (mirrored i) with same | ⟨-, grows⟩
    · rwa [same]
    · exact grows adds h known
  · rwa [took.turn.node_other i here]

/-- **A step moves the matter on and never drops it.** -/
theorem pending (took : Took C net net' l n event input d sends) (running : d.fault = none)
    (mirrored : ∀ i, Mirrors X (net.node i).store)
    (carried : Carried (fun _ e => Canonical X e) net)
    (adds : ∀ author toDelete, event ≠ .client (.rm author toDelete)) {i j : ι} {h : Bytes}
    (knows : Knows C net i j) (known : h ∈ (net.node i).store.myHashes)
    (pending : Pending C net i j h) : Covered C net' i j h := by
  have has : ∀ {k e}, X.sha256 e = h → X.sha256 e ∈ (net.node k).store.myHashes →
      h ∈ (net'.node k).store.myHashes :=
    fun same member => took.hashes_mono mirrored adds (same ▸ member)
  cases pending with
  | note note =>
      have next := took.at_node (fun d => .new ∈ d.toP2p) (Q := Pending C net' i j h)
        note ?_
      · exact .inr (next.elim .note id)
      · rintro rfl
        refine (took.acts.new_kept running note).imp_right fun up => .flag ?_
        rwa [took.turn.node_self]
  | flag up =>
      have next := took.at_node (fun d => d.p2p.toBcastHashes = true) (Q := Pending C net' i j h)
        up ?_
      · exact .inr (next.elim .flag id)
      · rintro rfl
        exact (took.acts.flag_kept up).imp_right fun sent => .hash (took.mem_sent (sent _ knows)) known
  | hash inFlight member =>
      rcases took.mem_kept inFlight with kept | ⟨rfl, rfl, -⟩
      · exact .inr (.hash kept member)
      · rcases took.acts.hash_answered running member with known' | requested
        · exact .inl (took.hashes_mono mirrored adds known')
        · refine .inr (.request ?_)
          rwa [took.turn.node_self]
  | request requested =>
      have next := took.at_node (fun d => Requested d.p2p.dbRequests (C.address i) h) (Q := Pending C net' i j h)
        requested ?_
      · exact .inr (next.elim .request id)
      · rintro rfl
        refine (took.acts.request_kept requested).imp_right ?_
        rintro ⟨wanted, sent, member⟩
        exact .req (took.mem_sent sent) member
  | req inFlight member =>
      rcases took.mem_kept inFlight with kept | ⟨rfl, rfl, -⟩
      · exact .inr (.req kept member)
      · refine .inr (.get ?_ member)
        rw [took.turn.node_self]
        exact took.acts.req_answered running
  | get asked member =>
      rename_i wanted
      have next := took.at_node (fun d => .get (C.address j) wanted ∈ d.toDb) (Q := Pending C net' i j h)
        asked ?_
      · exact .inr (next.elim (.get · member) id)
      · rintro rfl
        refine (took.acts.get_kept running asked member (((mirrored i).same h).mp known)).imp_right ?_
        rintro ⟨docs, reply, e, inDocs, same⟩
        exact .put (by rw [took.turn.node_self]; exact reply) inDocs same
  | put reply inDocs same =>
      rename_i docs e
      have next := took.at_node (fun d => .put (C.address j) docs ∈ d.toP2p) (Q := Pending C net' i j h)
        reply ?_
      · exact .inr (next.elim (.put · inDocs same) id)
      · rintro rfl
        exact (took.acts.put_kept running reply).imp_right fun sent =>
          .doc (took.mem_sent sent) inDocs same
  | doc inFlight inDocs same =>
      rcases took.mem_kept inFlight with kept | ⟨rfl, rfl, -⟩
      · exact .inr (.doc kept inDocs same)
      · rcases took.acts.doc_answered running inDocs with known' | ⟨docs', asked, inDocs'⟩
        · exact .inl (has same known')
        · refine .inr (.ins ?_ inDocs' same)
          rwa [took.turn.node_self]
  | ins asked inDocs same =>
      rename_i docs e
      have next := took.at_node (fun d => .ins docs ∈ d.toDb) (Q := h ∈ (net'.node j).store.myHashes)
        asked ?_
      · exact next.symm.imp_right (.ins · inDocs same)
      · rintro rfl
        rw [took.turn.node_self, ← same]
        exact took.acts.ins_kept running (mirrored j) asked inDocs
          (carried.ins j docs asked e inDocs)

end Took

/-! ## Where a hash came from -/

/-- Stored at the start, or added by a client since. -/
def Contributed (C : Config X ι) (ls : List (Label X ι)) (i : ι) (h : Bytes) : Prop :=
  h ∈ hashes X (C.db i) ∨ ∃ author docs, .act i (.client (.add author docs)) ∈ ls ∧
    ∃ ad ∈ docs, X.sha256 (entryOf X author ad) = h

/-- Joined by a chain of daemons one of which knows the next. -/
def Chain (C : Config X ι) (net : Network ι) : ι → ι → Prop :=
  Relation.ReflTransGen (Linked C net)

omit [DecidableEq ι] in
theorem Chain.symm {C : Config X ι} {net : Network ι} {i j : ι} (chain : Chain C net i j) :
    Chain C net j i := by
  induction chain with
  | refl => exact .refl
  | tail _ link ih =>
      obtain ⟨ha, hb, knows⟩ := link
      exact .head ⟨hb, ha, knows.symm⟩ ih

omit [DecidableEq ι] in
theorem Chain.mono {C : Config X ι} {net net' : Network ι} {i j : ι} (chain : Chain C net i j)
    (links : ∀ a b, Linked C net a b → Linked C net' a b) : Chain C net' i j := by
  induction chain with
  | refl => exact .refl
  | tail _ link ih => exact .tail ih (links _ _ link)

/-- Clients only add, and only entries that peers accept and store as they are. -/
def AddsOnly (net : Network ι) (l : Label X ι) : Prop :=
  NoRestart net l ∧ ∀ i cmd, l = .act i (.client cmd) →
    ∃ author docs, cmd = .add author docs ∧ ∀ ad ∈ docs, Canonical X (entryOf X author ad)

omit [DecidableEq ι] in
theorem Handling.addsOnly {net : Network ι} {l : Label X ι} (handling : Handling net l) :
    AddsOnly net l :=
  ⟨handling.1, fun i cmd same => absurd same (handling.2 i cmd)⟩

omit [DecidableEq ι] in
theorem addsOnly_add {author : Bytes} {ad : Document X.Num}
    (canonical : Canonical X (entryOf X author ad)) (net : Network ι) (i : ι) :
    AddsOnly net (.act i (.client (.add author [ad]))) := by
  refine ⟨nofun, ?_⟩
  rintro i cmd ⟨⟩
  exact ⟨_, _, rfl, fun ad member => List.mem_singleton.mp member ▸ canonical⟩

/-- An entry that is canonical and was contributed in the component of the daemon. -/
def Sourced (C : Config X ι) (ls : List (Label X ι)) (net : Network ι) (i : ι) (e : Bytes) : Prop :=
  Canonical X e ∧ ∃ k, Chain C net i k ∧ Contributed C ls k (X.sha256 e)

structure Synced (C : Config X ι) (ls : List (Label X ι)) (net : Network ι) : Prop where
  routed : Routed C net
  endpoints : Endpoints X net
  running : ∀ i, Running net i
  flagged : ∀ i, Flagged (net.node i)
  carried : Carried (Sourced C ls net) net
  covered : ∀ i j, Knows C net i j → ∀ h ∈ (net.node i).store.myHashes, Covered C net i j h
  kept : ∀ i h, Contributed C ls i h → h ∈ (net.node i).store.myHashes

omit [DecidableEq ι] in
theorem synced_init {C : Config X ι} (canonical : ∀ i, ∀ doc ∈ C.db i, Canonical X doc.data) :
    Synced C [] C.init where
  routed := routed_init C
  endpoints := endpoints_init C
  running _ := rfl
  flagged _ _ _ _ requested := by
    obtain ⟨r, member, -⟩ := requested
    cases member
  carried := carried_init fun i doc member =>
    ⟨canonical i doc member, i, .refl, .inl (mem_hashes.mpr ⟨doc, member, rfl⟩)⟩
  covered _ _ _ _ _ := .inr (.flag rfl)
  kept i h contributed := by
    rcases contributed with stored | ⟨_, _, impossible, -⟩
    · exact ((mirrored_init C i).same h).mpr stored
    · cases impossible

theorem Took.synced {C : Config X ι} {net net' : Network ι} {l : Label X ι} {n : ι}
    {event : Event X} {input : Option (ι × PeerMsg)} {d : Daemon} {sends : Sends}
    (took : Took C net net' l n event input d sends) {ls : List (Label X ι)}
    (release : X.ndebug = true) (mirrored : ∀ i, Mirrors X (net.node i).store)
    (allowed : AddsOnly net l) (synced : Synced C ls net) : Synced C (ls ++ [l]) net' := by
  have canonical : Carried (fun _ e => Canonical X e) net :=
    synced.carried.mono fun _ _ sourced => sourced.1
  have goes := took.running_after release synced.routed synced.endpoints canonical
  have running : ∀ i, Running net' i := fun i => by
    by_cases here : i = n
    · subst here; rwa [Running, took.turn.node_self]
    · rw [Running, took.turn.node_other i here]; exact synced.running i
  have adds : ∀ author toDelete, event ≠ .client (.rm author toDelete) := by
    rintro author toDelete rfl
    obtain ⟨_, _, same, -⟩ := allowed.2 n _ took.client_label
    cases same
  have chain : ∀ {i k}, Chain C net i k → Chain C net' i k := fun joined =>
    joined.mono fun a b linked =>
      ⟨running a, running b, linked.2.2.imp took.knows_mono took.knows_mono⟩
  have contributed : ∀ {k h}, Contributed C ls k h → Contributed C (ls ++ [l]) k h := by
    rintro k h (stored | ⟨author, docs, member, ad⟩)
    · exact .inl stored
    · exact .inr ⟨author, docs, List.mem_append_left _ member, ad⟩
  refine ⟨took.routed synced.routed, took.addressed (C.connectable_localhost n) synced.endpoints, running, fun i => ?_, ?_,
    fun i j knows h known => ?_, fun i h from_ => ?_⟩
  · by_cases here : i = n
    · subst here; rw [took.turn.node_self]; exact took.acts.flagged (synced.flagged i)
    · rw [took.turn.node_other i here]; exact synced.flagged i
  · -- entries travel along chains, and only an add makes a new one
    refine took.carried (mirrored n) (synced.carried.mono ?_) ?_ ?_ ?_
    · rintro i e ⟨is, k, joined, from_⟩
      exact ⟨is, k, chain joined, contributed from_⟩
    · rintro e j ⟨is, k, joined, from_⟩ knows
      have step : Linked C net' j n :=
        ⟨running j, running n, .inr (took.knows_mono knows)⟩
      exact ⟨is, k, .head step joined, from_⟩
    · rintro e stored ⟨is, from_⟩ reserializes
      obtain rfl := is.unique reserializes
      exact ⟨is, from_⟩
    · rintro author docs rfl ad member -
      obtain ⟨_, _, same, fine⟩ := allowed.2 n _ took.client_label
      cases same
      exact ⟨fine ad member, n, .refl, .inr ⟨author, docs,
        List.mem_append_right _ (took.client_label ▸ List.mem_cons_self), ad, member, rfl⟩⟩
  · -- what is new, a peer or a hash, comes with the flag or with a note
    by_cases old : Knows C net i j ∧ h ∈ (net.node i).store.myHashes
    · rcases synced.covered i j old.1 h old.2 with has | pending
      · exact .inl (took.hashes_mono mirrored adds has)
      · exact took.pending goes mirrored canonical adds old.1 old.2 pending
    · have here : i = n := by
        by_contra other
        unfold Knows at old knows
        rw [took.turn.node_other i other] at knows known
        exact old ⟨knows, known⟩
      subst here
      unfold Knows at knows old
      rw [took.turn.node_self] at knows known
      rcases took.acts.hashes (mirrored i) with same | ⟨note, -⟩
      · rw [same] at known
        have fresh : C.address j ∉ (net.node i).p2p.myPeers := fun knows' => old ⟨knows', known⟩
        rcases took.acts.peers with ⟨same, -⟩ | ⟨same, -⟩ | ⟨addrs, -, learned⟩
        · exact absurd (same ▸ knows) fresh
        · exact absurd (same ▸ knows) fresh
        · rcases learned.flags with same | ⟨-, up, -⟩
          · exact absurd (same ▸ knows) fresh
          · exact .inr (.flag (by rw [took.turn.node_self]; exact up))
      · exact .inr (.note (by rw [took.turn.node_self]; exact note))
  · rcases from_ with stored | ⟨author, docs, member, ad, inDocs, same⟩
    · exact took.hashes_mono mirrored adds (synced.kept i h (.inl stored))
    · rcases List.mem_append.mp member with old | new
      · exact took.hashes_mono mirrored adds
          (synced.kept i h (.inr ⟨author, docs, old, ad, inDocs, same⟩))
      · -- the add of this very step
        have label : l = .act i (.client (.add author docs)) := (List.mem_singleton.mp new).symm
        rcases took.label with ⟨same', -, -⟩ | ⟨_, _, same', -⟩
        · rw [label] at same'
          cases same'
          rw [took.turn.node_self]
          have acts := took.acts
          cases acts with
          | move moves => cases moves
          | client done =>
              obtain ⟨mirrors', -, stored⟩ := clientOp_add (mirrored _) done
              exact (mirrors'.same h).mpr ((stored h).mpr (.inr ⟨ad, inDocs, same⟩))
          | fault _ failed => rw [goes] at failed; cases failed
        · rw [label] at same'
          cases same'

theorem synced_of_run {C : Config X ι} (release : X.ndebug = true)
    (canonical : ∀ i, ∀ doc ∈ C.db i, Canonical X doc.data) {ls : List (Label X ι)}
    {net : Network ι} (run : NetRun C AddsOnly ls net) : Synced C ls net :=
  history_of_turns (fun _ _ ok => ok.1) run (synced_init canonical)
    fun mirrored synced allowed took => took.synced release mirrored allowed synced

/-! ## Quiet networks -/

/-- No message to a running daemon is in flight, on a link or in an inproc pair, and all
flags are down. -/
structure Quiescent (net : Network ι) : Prop where
  links : ∀ i j, Running net j → net.link i j = []
  toDb : ∀ i, Running net i → (net.node i).toDb = []
  toP2p : ∀ i, Running net i → (net.node i).toP2p = []
  peersFlag : ∀ i, Running net i → (net.node i).p2p.toBcastPeers = false
  hashesFlag : ∀ i, Running net i → (net.node i).p2p.toBcastHashes = false
  requestsFlag : ∀ i, Running net i → (net.node i).p2p.toSendDbRequests = false

omit [DecidableEq ι] in
theorem Quiescent.peersSettled {net : Network ι} (quiet : Quiescent net) : PeersSettled net where
  delivered i j running addrs inFlight := by
    rw [quiet.links i j running] at inFlight
    cases inFlight
  told := quiet.peersFlag

omit [DecidableEq ι] in
theorem Quiescent.not_pending {C : Config X ι} {net : Network ι} (quiet : Quiescent net)
    (running : ∀ i, Running net i) (flagged : ∀ i, Flagged (net.node i)) {i j : ι} {h : Bytes} :
    ¬ Pending C net i j h := by
  intro pending
  cases pending with
  | note note => rw [quiet.toP2p i (running i)] at note; cases note
  | flag up => rw [quiet.hashesFlag i (running i)] at up; cases up
  | hash inFlight _ => rw [quiet.links i j (running j)] at inFlight; cases inFlight
  | request requested =>
      exact flagged j (quiet.requestsFlag j (running j)) _ _ requested
  | req inFlight _ => rw [quiet.links j i (running i)] at inFlight; cases inFlight
  | get asked _ => rw [quiet.toDb i (running i)] at asked; cases asked
  | put reply _ _ => rw [quiet.toP2p i (running i)] at reply; cases reply
  | doc inFlight _ _ => rw [quiet.links i j (running j)] at inFlight; cases inFlight
  | ins asked _ _ => rw [quiet.toDb j (running j)] at asked; cases asked

/-- **The databases of a quiet network are a union.** In a Release build, without restarts, with
clients that only add and with entries that peers accept and store as they are: in every
quiet state any two daemons of a chain hold the same hashes, and these are the hashes
that were stored at, or added to, the daemons of the chain-connected component. -/
theorem quiet_synchronised {C : Config X ι} (release : X.ndebug = true)
    (canonical : ∀ i, ∀ doc ∈ C.db i, Canonical X doc.data) {ls : List (Label X ι)}
    {net : Network ι} (run : NetRun C AddsOnly ls net) (quiet : Quiescent net) {i j : ι}
    (chain : Chain C net i j) :
    (∀ h, h ∈ hashes X (net.node i).store.db ↔ h ∈ hashes X (net.node j).store.db) ∧
    ∀ h, h ∈ hashes X (net.node i).store.db ↔ ∃ k, Chain C net i k ∧ Contributed C ls k h := by
  have synced := synced_of_run release canonical run
  have peered := peered_of_run (run.weaken fun _ _ ok => ok.1)
  have mirrored := mirrored_of_run run
  -- a hash passes from a daemon to whoever it knows, and in a chain all know each other
  have passes : ∀ i j, Chain C net i j → ∀ h, h ∈ hashes X (net.node i).store.db →
      h ∈ hashes X (net.node j).store.db := by
    intro i j chain h stored
    rcases quiet.peersSettled.chain peered chain (synced.running _) with same | knows
    · exact same ▸ stored
    · rcases synced.covered i j knows h (((mirrored i).same h).mpr stored) with has | pending
      · exact ((mirrored j).same h).mp has
      · exact absurd pending (quiet.not_pending synced.running synced.flagged)
  refine ⟨fun h => ⟨passes i j chain h, passes j i chain.symm h⟩, fun h => ⟨fun stored => ?_, ?_⟩⟩
  · obtain ⟨doc, member, rfl⟩ := mem_hashes.mp stored
    exact (synced.carried.stored i doc member).2
  · rintro ⟨k, joined, from_⟩
    exact passes k i joined.symm h (((mirrored k).same h).mp (synced.kept k h from_))

end Piac
