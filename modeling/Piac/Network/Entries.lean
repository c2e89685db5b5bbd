/-
# Network.Entries — where an entry can be, and whence it came

An entry of an ad is in a database, in a PUT, in a DOC or in an INS, and in no other
place. `Carried P` says that each of them has a property `P` at the daemon that
holds it or is about to receive it; `Took.carried` reduces its preservation to the
three ways in which an entry gets to a new place: sent to a peer, re-serialised by
`db_put_docs`, added by a client.

`Addressed A` is the same kind of statement about the addresses of peers, which come
from the command lines and from the daemons themselves.
-/
import Piac.Network.Routing

namespace Piac

set_option autoImplicit false

open Piac.Theory.CppString Piac.Theory.Transition Piac.Theory.MessagePassing
  Piac.Theory.TermStore

universe u

variable {X : Platform} {ι : Type u}

/-! ## Entries -/

structure Carried (P : ι → Bytes → Prop) (net : Network ι) : Prop where
  stored : ∀ i, ∀ doc ∈ (net.node i).store.db, P i doc.data
  puts : ∀ i addr docs, .put addr docs ∈ (net.node i).toP2p → ∀ d ∈ docs, P i d
  docs : ∀ i j docs, .doc docs ∈ net.link i j → ∀ d ∈ docs, P j d
  ins : ∀ i docs, .ins docs ∈ (net.node i).toDb → ∀ d ∈ docs, P i d

theorem Carried.mono {P Q : ι → Bytes → Prop} {net : Network ι} (carried : Carried P net)
    (weaker : ∀ i d, P i d → Q i d) : Carried Q net where
  stored i doc member := weaker _ _ (carried.stored i doc member)
  puts i addr docs member d inDocs := weaker _ _ (carried.puts i addr docs member d inDocs)
  docs i j docs member d inDocs := weaker _ _ (carried.docs i j docs member d inDocs)
  ins i docs member d inDocs := weaker _ _ (carried.ins i docs member d inDocs)

theorem carried_init {C : Config X ι} {P : ι → Bytes → Prop}
    (stored : ∀ i, ∀ doc ∈ C.db i, P i doc.data) : Carried P C.init where
  stored := stored
  puts _ _ _ member := by cases member
  docs _ _ _ member := by cases member
  ins _ _ member := by cases member

theorem entryUnder_mem {db : Database} {hash entry : Bytes}
    (found : entryUnder X db hash = some entry) : ∃ doc ∈ db, doc.data = entry := by
  obtain ⟨doc, found, same⟩ := Option.map_eq_some_iff.mp found
  exact ⟨doc, List.mem_of_find?_eq_some found, same⟩

/-- The entries of one daemon. -/
structure CarriedAt (P : Bytes → Prop) (d : Daemon) : Prop where
  stored : ∀ doc ∈ d.store.db, P doc.data
  puts : ∀ addr docs, .put addr docs ∈ d.toP2p → ∀ e ∈ docs, P e
  ins : ∀ docs, .ins docs ∈ d.toDb → ∀ e ∈ docs, P e

theorem Carried.at {P : ι → Bytes → Prop} {net : Network ι} (carried : Carried P net) (i : ι) :
    CarriedAt (P i) (net.node i) :=
  ⟨carried.stored i, carried.puts i, carried.ins i⟩

/-- One event keeps a property of the daemon's entries, if it holds of what the event
answers and of what it adds and stores, and re-serialising keeps it. -/
theorem Acts.carriedAt {p2pPort : Nat} {d d' : Daemon} {event : Event X} {sends : Sends}
    (acts : Acts p2pPort d event d' sends) (mirrors : Mirrors X d.store) {P : Bytes → Prop}
    (carried : CarriedAt P d)
    (restock : ∀ e stored, P e → Reserializes X e stored → P stored)
    (answers : ∀ docs, event = .answerP2p (.doc docs) → ∀ e ∈ docs, P e)
    (adds : ∀ author docs, event = .client (.add author docs) → ∀ ad ∈ docs,
      (∃ doc ∈ d'.store.db, doc.data = entryOf X author ad) → P (entryOf X author ad)) :
    CarriedAt P d' := by
  obtain ⟨stored, puts, ins⟩ := carried
  cases acts with
  | recvReq _ _ =>
      exact ⟨stored, puts, fun docs member => ins docs (by simpa using member)⟩
  | recvDoc _ _ =>
      refine ⟨stored, puts, fun docs member e inDocs => ?_⟩
      rcases List.mem_append.mp member with old | new
      · exact ins docs old e inDocs
      · cases List.mem_singleton.mp new
        exact answers _ rfl e (List.mem_filter.mp inDocs).1
  | answerPut _ queue _ _ =>
      exact ⟨stored, fun addr docs member => puts addr docs (by simp [queue, member]), ins⟩
  | answerNew _ queue =>
      exact ⟨stored, fun addr docs member => puts addr docs (by simp [queue, member]), ins⟩
  | get queue _ =>
      refine ⟨stored, fun addr docs member e inDocs => ?_,
        fun docs member => ins docs (by simp [queue, member])⟩
      rcases List.mem_append.mp member with old | new
      · exact puts addr docs old e inDocs
      · cases List.mem_singleton.mp new
        obtain ⟨hash, -, found⟩ := List.mem_filterMap.mp inDocs
        obtain ⟨doc, inDb, rfl⟩ := entryUnder_mem found
        exact stored doc inDb
  | insKnown queue _ =>
      exact ⟨stored, puts, fun docs member => ins docs (by simp [queue, member])⟩
  | insNew queue _ done =>
      refine ⟨fun doc member => ?_, fun addr docs member => puts addr docs (by simpa using member),
        fun docs member => ins docs (by simp [queue, member])⟩
      rcases dbPeerOp_ins_data mirrors done member with ⟨old, inDb, same⟩ | ⟨e, inDocs, stored'⟩
      · exact same ▸ stored old inDb
      · exact restock e doc.data (ins _ (by rw [queue]; exact List.mem_cons_self) e inDocs) stored'
  | client done =>
      rename_i cmd store
      refine ⟨fun doc member => ?_, fun addr docs member => puts addr docs (by simpa using member),
        ins⟩
      cases cmd with
      | add author docs =>
          rcases clientOp_add_data mirrors done member with ⟨old, inDb, same⟩ | ⟨ad, inDocs, same⟩
          · exact same ▸ stored old inDb
          · exact same ▸ adds author docs rfl ad inDocs ⟨doc, member, same⟩
      | rm author toDelete => exact stored doc ((clientOp_rm mirrors done).2.2 doc member)
  | fault _ _ _ store toDb toP2p =>
      exact ⟨by rw [store]; exact stored, fun addr docs member => puts addr docs (toP2p.mem member),
        fun docs member => ins docs (toDb.mem member)⟩
  | _ => exact ⟨stored, puts, ins⟩

/-- A DOC is the answer to a PUT. -/
theorem Acts.sent_doc {p2pPort : Nat} {d d' : Daemon} {event : Event X} {sends : Sends}
    (acts : Acts p2pPort d event d' sends) {a : Bytes} {docs : List Bytes}
    (sent : (a, .doc docs) ∈ sends) : .put a docs ∈ d.toP2p := by
  cases acts with
  | bcastPeers _ _ => simp at sent
  | bcastHashes _ _ => simp at sent
  | sendDbRequests _ _ _ => simp at sent
  | answerPut _ queue _ _ =>
      cases List.mem_singleton.mp sent
      rw [queue]
      exact List.mem_cons_self
  | _ => cases sent

theorem Canonical.readable {e : Bytes} (canonical : Canonical X e) :
    ∃ r, Document.deserialize X e = .ok r := by
  obtain ⟨ad, read, -, -⟩ := canonical
  exact ⟨some ad, read⟩

/-! ## Addresses -/

/-- Every address on a peer list or in a PEER has a property. -/
structure Addressed (A : Bytes → Prop) (net : Network ι) : Prop where
  peers : ∀ i, ∀ a ∈ (net.node i).p2p.myPeers, A a
  named : ∀ i j addrs, .peer addrs ∈ net.link i j → ∀ a ∈ addrs, A a

/-- Every address can be connected to. -/
abbrev Endpoints (X : Platform) : Network ι → Prop :=
  Addressed fun a => X.connectable a = true

theorem endpoints_init (C : Config X ι) : Endpoints X C.init where
  peers := C.connectable_peers
  named _ _ _ member := by cases member

theorem Acts.sent_peer {p2pPort : Nat} {d d' : Daemon} {event : Event X} {sends : Sends}
    (acts : Acts p2pPort d event d' sends) {a : Bytes} {addrs : List Bytes}
    (sent : (a, .peer addrs) ∈ sends) : addrs = localhost p2pPort :: d.p2p.myPeers := by
  cases acts with
  | bcastPeers _ _ =>
      obtain ⟨b, -, same⟩ := List.mem_map.mp sent
      cases same
      rfl
  | bcastHashes _ _ => simp at sent
  | sendDbRequests _ _ _ => simp at sent
  | answerPut _ _ _ _ => simp at sent
  | _ => cases sent

variable [DecidableEq ι]

namespace Took

variable {C : Config X ι} {net net' : Network ι} {l : Label X ι} {n : ι} {event : Event X}
  {input : Option (ι × PeerMsg)} {d : Daemon} {sends : Sends}

theorem carried (took : Took C net net' l n event input d sends)
    (mirrors : Mirrors X (net.node n).store) {P : ι → Bytes → Prop} (carried : Carried P net)
    (spread : ∀ e j, P n e → Knows C net n j → P j e)
    (restock : ∀ e stored, P n e → Reserializes X e stored → P n stored)
    (adds : ∀ author docs, event = .client (.add author docs) → ∀ ad ∈ docs,
      (∃ doc ∈ d.store.db, doc.data = entryOf X author ad) → P n (entryOf X author ad)) :
    Carried P net' := by
  have at_ : ∀ i, CarriedAt (P i) (net'.node i) := by
    intro i
    by_cases here : i = n
    · subst here
      rw [took.turn.node_self]
      refine took.acts.carriedAt mirrors (carried.at i) restock ?_ adds
      rintro docs rfl
      obtain ⟨src, -, -, inFlight⟩ := took.source
      exact carried.docs src i docs inFlight
    · rw [took.turn.node_other i here]
      exact carried.at i
  refine ⟨fun i => (at_ i).stored, fun i => (at_ i).puts, fun i j docs member e inDocs => ?_,
    fun i => (at_ i).ins⟩
  rcases took.mem_new member with old | ⟨rfl, sent⟩
  · exact carried.docs i j docs old e inDocs
  · exact spread e j (carried.puts i _ docs (took.acts.sent_doc sent) e inDocs)
      (took.acts.sent sent).1

/-- Daemons only learn the addresses that are around, and the own ones. -/
theorem addressed (took : Took C net net' l n event input d sends) {A : Bytes → Prop}
    (own : A (C.address n)) (addressed : Addressed A net) : Addressed A net' := by
  refine ⟨fun i a known => ?_, fun i j addrs member a named => ?_⟩
  · by_cases here : i = n
    · subst here
      rw [took.turn.node_self] at known
      rcases took.acts.peers with ⟨same, -⟩ | ⟨same, -⟩ | ⟨addrs, rfl, learned⟩
      · exact addressed.peers i a (same ▸ known)
      · exact addressed.peers i a (same ▸ known)
      · obtain ⟨src, -, -, inFlight⟩ := took.source
        rcases (learned.mem a).mp known with old | ⟨inAddrs, -⟩
        · exact addressed.peers i a old
        · exact addressed.named src i addrs inFlight a inAddrs
    · rw [took.turn.node_other i here] at known
      exact addressed.peers i a known
  · rcases took.mem_new member with old | ⟨rfl, sent⟩
    · exact addressed.named i j addrs old a named
    · rw [took.acts.sent_peer sent] at named
      rcases List.mem_cons.mp named with rfl | known
      · exact own
      · exact addressed.peers i a known

end Took

/-! ## Release builds do not end -/

/-- With nothing but canonical entries around, a daemon of a Release build goes on. -/
theorem Took.running_after {C : Config X ι} {net net' : Network ι} {l : Label X ι} {n : ι}
    {event : Event X} {input : Option (ι × PeerMsg)} {d : Daemon} {sends : Sends}
    (took : Took C net net' l n event input d sends) (release : X.ndebug = true)
    (routed : Routed C net) (endpoints : Endpoints X net)
    (carried : Carried (fun _ e => Canonical X e) net) : d.fault = none := by
  have running := took.running
  have answerable := routed.answerable n
  have acts := took.acts
  cases acts with
  | fault why _ _ _ _ _ =>
      exfalso
      cases why with
      | request _ _ member missing => exact missing (answerable.requests _ member)
      | peer inAddrs refused =>
          obtain ⟨src, -, -, inFlight⟩ := took.source
          rw [endpoints.named src n _ inFlight _ inAddrs] at refused
          cases refused
      | req debug => rw [release] at debug; cases debug
      | doc debug => rw [release] at debug; cases debug
      | put debug _ => rw [release] at debug; cases debug
      | reply member missing => exact missing (answerable.puts _ _ member)
      | peerOp member reason =>
          rename_i req
          cases req with
          | get addr wanted =>
              obtain ⟨debug, -⟩ := reason
              rw [release] at debug
              cases debug
          | ins docs =>
              rcases reason with ⟨debug, -⟩ | ⟨-, e, inDocs, unreadable⟩
              · rw [release] at debug; cases debug
              · obtain ⟨r, read⟩ := (carried.ins n docs member e inDocs).readable
                rw [read] at unreadable
                cases unreadable
      | client debug => rw [release] at debug; cases debug
  | _ => exact running

end Piac
