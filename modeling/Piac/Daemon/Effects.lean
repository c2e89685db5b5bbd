/-
# Daemon.Effects — what one event does to a daemon

`Acts` lists, once, everything an event can do: fifteen outcomes with the state
after and the messages sent, the last being a fault, whose possible reasons
`Faults` lists. `act_acts` shows that the list is complete; the network results are
case analyses of it.

The lemmas before it describe the two loops of the p2p thread, over the addresses
of a PEER (`learnPeers_*`) and over the hashes of a HASH (`noteHashes_*`).
-/
import Piac.Daemon.Loop
import Piac.Store.Mirror

namespace Piac

set_option autoImplicit false

open Piac.Theory.CppString

variable {X : Platform}

/-! ## Learning peers -/

/-- The loop of the PEER branch. -/
abbrev learnPeers (X : Platform) (p2pPort : Nat) (st : P2p) (addrs : List Bytes) :
    Except Fault P2p :=
  addrs.foldlM (learnPeer X p2pPort) st

/-- What the PEER branch does: it adds the foreign addresses, and raises both
broadcast flags if one of them was new. -/
structure Learned (p2pPort : Nat) (addrs : List Bytes) (st st' : P2p) : Prop where
  mem : ∀ a, a ∈ st'.myPeers ↔ a ∈ st.myPeers ∨ (a ∈ addrs ∧ a ≠ localhost p2pPort)
  requests : st'.dbRequests = st.dbRequests
  sendFlag : st'.toSendDbRequests = st.toSendDbRequests
  flags : st' = st ∨ (st'.toBcastPeers = true ∧ st'.toBcastHashes = true ∧
    ∃ a ∈ addrs, a ∉ st.myPeers ∧ a ∈ st'.myPeers)

theorem learnPeers_learned {p2pPort : Nat} {addrs : List Bytes} {st st' : P2p}
    (learned : learnPeers X p2pPort st addrs = .ok st') : Learned p2pPort addrs st st' := by
  induction addrs generalizing st with
  | nil => cases learned; exact ⟨by simp, rfl, rfl, .inl rfl⟩
  | cons a rest ih =>
      simp only [learnPeers, List.foldlM_cons, bind_eq_ok] at learned
      obtain ⟨st₁, first, learned⟩ := learned
      obtain ⟨mem, requests, sendFlag, flags⟩ := ih learned
      unfold learnPeer at first
      split at first
      · rename_i new
        split at first
        · cases first
          refine ⟨fun b => ?_, requests, sendFlag, .inr ?_⟩
          · rw [mem]
            simp only [List.mem_append, List.mem_cons, List.not_mem_nil, or_false]
            constructor
            · rintro ((old | rfl) | later)
              · exact .inl old
              · exact .inr ⟨.inl rfl, new.1⟩
              · exact .inr ⟨.inr later.1, later.2⟩
            · rintro (old | ⟨rfl | later, foreign⟩)
              · exact .inl (.inl old)
              · exact .inl (.inr rfl)
              · exact .inr ⟨later, foreign⟩
          · have raised : st'.toBcastPeers = true ∧ st'.toBcastHashes = true := by
              rcases flags with rfl | ⟨peers, hashes, -⟩
              · exact ⟨rfl, rfl⟩
              · exact ⟨peers, hashes⟩
            exact ⟨raised.1, raised.2, a, by simp, new.2, (mem a).mpr (.inl (by simp))⟩
        · cases first
      · rename_i old
        cases first
        refine ⟨fun b => ?_, requests, sendFlag, ?_⟩
        · rw [mem]
          simp only [List.mem_cons]
          constructor
          · rintro (known | later)
            · exact .inl known
            · exact .inr ⟨.inr later.1, later.2⟩
          · rintro (known | ⟨rfl | later, foreign⟩)
            · exact .inl known
            · exact .inl (by by_contra new; exact old ⟨foreign, new⟩)
            · exact .inr ⟨later, foreign⟩
        · rcases flags with same | ⟨peers, hashes, b, inRest, fresh⟩
          · exact .inl same
          · exact .inr ⟨peers, hashes, b, by simp [inRest], fresh⟩

theorem learnPeers_error {p2pPort : Nat} {addrs : List Bytes} {st : P2p} {f : Fault}
    (failed : learnPeers X p2pPort st addrs = .error f) :
    f = .endpoint ∧ ∃ a ∈ addrs, X.connectable a = false := by
  induction addrs generalizing st with
  | nil => cases failed
  | cons a rest ih =>
      simp only [learnPeers, List.foldlM_cons, bind_eq_error] at failed
      rcases failed with first | ⟨st₁, -, later⟩
      · unfold learnPeer at first
        split at first
        · split at first
          · cases first
          · rename_i refused
            cases first
            exact ⟨rfl, a, by simp, by simpa using refused⟩
        · cases first
      · obtain ⟨rfl, b, inRest, refused⟩ := ih later
        exact ⟨rfl, b, by simp [inRest], refused⟩

/-! ## Recording requests -/

/-- The hash is to be requested at that address. -/
def Requested (requests : List (Bytes × List Bytes)) (addr hash : Bytes) : Prop :=
  ∃ r ∈ requests, r.1 = addr ∧ hash ∈ r.2

theorem mem_emplace {peers : List Bytes} {a b : Bytes} :
    a ∈ emplace peers b ↔ a ∈ peers ∨ a = b := by
  unfold emplace
  split
  · rename_i known
    exact ⟨.inl, fun h => h.elim id fun same => same ▸ known⟩
  · simp

theorem recordRequest_mem {sender hash : Bytes} {requests : List (Bytes × List Bytes)}
    {r : Bytes × List Bytes} (member : r ∈ recordRequest sender hash requests) :
    r ∈ requests ∨ (r.1 = sender ∧ hash ∈ r.2 ∧
      ∀ h ∈ r.2, h = hash ∨ Requested requests sender h) := by
  induction requests with
  | nil =>
      simp only [recordRequest, List.mem_singleton] at member
      subst member
      exact .inr ⟨rfl, by simp, by simp⟩
  | cons q rest ih =>
      obtain ⟨addr, wanted⟩ := q
      simp only [recordRequest] at member
      split at member
      · rename_i same
        subst same
        rcases List.mem_cons.mp member with rfl | inRest
        · refine .inr ⟨rfl, mem_emplace.mpr (.inr rfl), fun h inSet => ?_⟩
          rcases mem_emplace.mp inSet with old | same
          · exact .inr ⟨_, List.mem_cons_self, rfl, old⟩
          · exact .inl same
        · exact .inl (by simp [inRest])
      · rcases List.mem_cons.mp member with rfl | inRest
        · exact .inl (by simp)
        · rcases ih inRest with old | ⟨atSender, has, only⟩
          · exact .inl (by simp [old])
          · refine .inr ⟨atSender, has, fun h inSet => (only h inSet).imp_right ?_⟩
            rintro ⟨r', inRest', rest'⟩
            exact ⟨r', by simp [inRest'], rest'⟩

theorem requested_recordRequest {sender hash addr h : Bytes}
    {requests : List (Bytes × List Bytes)} :
    Requested (recordRequest sender hash requests) addr h ↔
      Requested requests addr h ∨ (addr = sender ∧ h = hash) := by
  induction requests with
  | nil =>
      simp only [recordRequest, Requested, List.mem_singleton, exists_eq_left, List.not_mem_nil,
        false_and, exists_false, false_or]
      exact and_congr eq_comm Iff.rfl
  | cons q rest ih =>
      obtain ⟨key, wanted⟩ := q
      have unfold_ : ∀ tail, Requested ((key, wanted) :: tail) addr h ↔
          (key = addr ∧ h ∈ wanted) ∨ Requested tail addr h := by
        intro tail; simp [Requested]
      simp only [recordRequest]
      split
      · rename_i same
        subst same
        have head : Requested ((key, emplace wanted hash) :: rest) addr h ↔
            (key = addr ∧ (h ∈ wanted ∨ h = hash)) ∨ Requested rest addr h := by
          simp [Requested, mem_emplace]
        rw [head, unfold_]
        constructor
        · rintro (⟨same, old | new⟩ | later)
          · exact .inl (.inl ⟨same, old⟩)
          · exact .inr ⟨same.symm, new⟩
          · exact .inl (.inr later)
        · rintro ((⟨same, old⟩ | later) | ⟨same, new⟩)
          · exact .inl ⟨same, .inl old⟩
          · exact .inr later
          · exact .inl ⟨same.symm, .inr new⟩
      · rw [unfold_, unfold_, ih, or_assoc]

theorem recordRequest_length (sender hash : Bytes) (requests : List (Bytes × List Bytes)) :
    (recordRequest sender hash requests).length ≤ requests.length + 1 ∧
      (sender ∈ requests.map Prod.fst →
        (recordRequest sender hash requests).length = requests.length) ∧
      sender ∈ (recordRequest sender hash requests).map Prod.fst := by
  induction requests with
  | nil => simp [recordRequest]
  | cons q rest ih =>
      obtain ⟨key, wanted⟩ := q
      simp only [recordRequest]
      split
      · rename_i same; simp [same]
      · rename_i other
        obtain ⟨bound, kept, present⟩ := ih
        refine ⟨by simpa using bound, fun member => ?_, by simp [present]⟩
        simp only [List.map_cons, List.mem_cons, Ne.symm other, false_or] at member
        simpa using kept member

/-- The loop of the HASH branch. -/
abbrev noteHashes (myHashes : List Bytes) (sender : Bytes) (st : P2p) (wanted : List Bytes) :
    P2p :=
  wanted.foldl (noteHash myHashes sender) st

/-- What the HASH branch does: it records at the sender the hashes that `my_hashes`
lacks, and raises the request flag if there is one. -/
structure Noted (myHashes : List Bytes) (sender : Bytes) (wanted : List Bytes)
    (st st' : P2p) : Prop where
  peers : st'.myPeers = st.myPeers
  peersFlag : st'.toBcastPeers = st.toBcastPeers
  hashesFlag : st'.toBcastHashes = st.toBcastHashes
  requested : ∀ addr h, Requested st'.dbRequests addr h ↔
    Requested st.dbRequests addr h ∨ (addr = sender ∧ h ∈ wanted ∧ h ∉ myHashes)
  mem : ∀ r ∈ st'.dbRequests, r ∈ st.dbRequests ∨
    (r.1 = sender ∧ (∃ h ∈ wanted, h ∉ myHashes) ∧ r.2 ≠ [])
  length : st'.dbRequests.length ≤ st.dbRequests.length + 1
  kept : sender ∈ st.dbRequests.map Prod.fst → st'.dbRequests.length = st.dbRequests.length
  sendFlag : st'.toSendDbRequests = true ↔
    st.toSendDbRequests = true ∨ ∃ h ∈ wanted, h ∉ myHashes

theorem noteHashes_noted (myHashes : List Bytes) (sender : Bytes) (wanted : List Bytes)
    (st : P2p) : Noted myHashes sender wanted st (noteHashes myHashes sender st wanted) := by
  induction wanted generalizing st with
  | nil =>
      exact ⟨rfl, rfl, rfl, by simp, fun _ h => .inl h, by simp, fun _ => rfl, by simp⟩
  | cons h rest ih =>
      obtain ⟨peers, peersFlag, hashesFlag, requested, mem, length, kept, sendFlag⟩ :=
        ih (noteHash myHashes sender st h)
      by_cases known : h ∈ myHashes
      · have same : noteHash myHashes sender st h = st := by simp [noteHash, known]
        simp only [noteHashes, List.foldl_cons, same] at *
        refine ⟨peers, peersFlag, hashesFlag, fun addr k => ?_, fun r member => ?_, length, kept,
          ?_⟩
        · rw [requested]
          refine or_congr_right (and_congr_right fun _ => ?_)
          constructor
          · exact fun ⟨later, new⟩ => ⟨by simp [later], new⟩
          · rintro ⟨member, new⟩
            rcases List.mem_cons.mp member with rfl | later
            · exact absurd known new
            · exact ⟨later, new⟩
        · refine (mem r member).imp_right ?_
          rintro ⟨atSender, ⟨k, later, new⟩, pos⟩
          exact ⟨atSender, ⟨k, by simp [later], new⟩, pos⟩
        · rw [sendFlag]
          simp [known]
      · have noted : noteHash myHashes sender st h =
            { st with dbRequests := recordRequest sender h st.dbRequests
                      toSendDbRequests := true } := by
          simp [noteHash, known]
        obtain ⟨bound, keptOne, present⟩ := recordRequest_length sender h st.dbRequests
        simp only [noteHashes, List.foldl_cons, noted] at *
        have total := kept present
        refine ⟨peers, peersFlag, hashesFlag, fun addr k => ?_, fun r member => ?_, by omega,
          fun inKeys => total.trans (keptOne inKeys), ?_⟩
        · rw [requested, requested_recordRequest]
          simp only [List.mem_cons]
          constructor
          · rintro ((old | ⟨rfl, rfl⟩) | ⟨rfl, later, new⟩)
            · exact .inl old
            · exact .inr ⟨rfl, .inl rfl, known⟩
            · exact .inr ⟨rfl, .inr later, new⟩
          · rintro (old | ⟨rfl, rfl | later, new⟩)
            · exact .inl (.inl old)
            · exact .inl (.inr ⟨rfl, rfl⟩)
            · exact .inr ⟨rfl, later, new⟩
        · rcases mem r member with inRecord | ⟨atSender, ⟨k, later, new⟩, pos⟩
          · rcases recordRequest_mem inRecord with old | ⟨atSender, has, -⟩
            · exact .inl old
            · exact .inr ⟨atSender, ⟨h, by simp, known⟩, List.ne_nil_of_mem has⟩
          · exact .inr ⟨atSender, ⟨k, by simp [later], new⟩, pos⟩
        · rw [sendFlag]
          simp [known]

/-! ## Requests at the peers -/

theorem mapM_sendAt {p2pPort : Nat} {st : P2p} {requests : List (Bytes × List Bytes)}
    {sends : Sends}
    (sent : (requests.mapM fun r => sendAt st r.1 (PeerMsg.req (localhost p2pPort) r.2)) =
      .ok sends) :
    sends = requests.map (fun r => (r.1, .req (localhost p2pPort) r.2)) ∧
      ∀ r ∈ requests, r.1 ∈ st.myPeers := by
  induction requests generalizing sends with
  | nil => cases sent; simp
  | cons r rest ih =>
      simp only [List.mapM_cons, bind_eq_ok] at sent
      obtain ⟨send, first, others, later, shape⟩ := sent
      cases shape
      obtain ⟨rfl, known⟩ := ih later
      unfold sendAt at first
      split at first
      · rename_i here
        cases first
        simp only [List.map_cons, List.mem_cons, forall_eq_or_imp, true_and]
        exact ⟨here, known⟩
      · cases first

theorem mapM_sendAt_error {p2pPort : Nat} {st : P2p} {requests : List (Bytes × List Bytes)}
    {f : Fault}
    (failed : (requests.mapM fun r => sendAt st r.1 (PeerMsg.req (localhost p2pPort) r.2)) =
      .error f) :
    f = .mapAt ∧ ∃ r ∈ requests, r.1 ∉ st.myPeers := by
  induction requests with
  | nil => cases failed
  | cons r rest ih =>
      simp only [List.mapM_cons, bind_eq_error] at failed
      rcases failed with first | ⟨send, -, later | ⟨_, -, impossible⟩⟩
      · unfold sendAt at first
        split at first
        · cases first
        · rename_i missing
          cases first
          exact ⟨rfl, r, by simp, missing⟩
      · obtain ⟨rfl, r', inRest, missing⟩ := ih later
        exact ⟨rfl, r', by simp [inRest], missing⟩
      · cases impossible

/-! ## One event -/

/-- A step of the p2p thread that only moves it on in its loop. -/
inductive Moves (d : Daemon) : Event X → Phase → Prop where
  | bcastPeers : d.phase = .bcastPeers → d.p2p.toBcastPeers = false →
      Moves d .bcastPeers .bcastHashes
  | bcastHashes : d.phase = .bcastHashes → d.p2p.toBcastHashes = false →
      Moves d .bcastHashes .sendDbRequests
  | sendDbRequests : d.phase = .sendDbRequests → d.p2p.toSendDbRequests = false →
      Moves d .sendDbRequests .poll
  | pass : d.phase = .answered → Moves d .pass .bcastPeers

/-- Why an event may end the process. -/
inductive Faults (d : Daemon) : Event X → Fault → Prop where
  | request {r : Bytes × List Bytes} : d.phase = .sendDbRequests →
      d.p2p.toSendDbRequests = true → r ∈ d.p2p.dbRequests → r.1 ∉ d.p2p.myPeers →
      Faults d .sendDbRequests .mapAt
  | peer {addrs : List Bytes} {a : Bytes} : a ∈ addrs → X.connectable a = false →
      Faults d (.answerP2p (.peer addrs)) .endpoint
  | req {addr : Bytes} : X.ndebug = false →
      Faults d (.answerP2p (.req addr [])) (.assertion .req)
  | doc : X.ndebug = false → Faults d (.answerP2p (.doc [])) (.assertion .doc)
  | put {addr : Bytes} : X.ndebug = false → .put addr [] ∈ d.toP2p →
      Faults d .answerDb (.assertion .put)
  | reply {addr : Bytes} {docs : List Bytes} : .put addr docs ∈ d.toP2p →
      addr ∉ d.p2p.myPeers → Faults d .answerDb .mapAt
  | peerOp {req : DbReq} {f : Fault} : req ∈ d.toDb → PeerOpFaults X f req →
      Faults d .dbPeerOp f
  | client {cmd : ClientCmd X} : X.ndebug = false → cmd.author = [] →
      Faults d (.client cmd) (.assertion .author)

/-- Everything an event can do: the daemon after it, and what it sends to peers. -/
inductive Acts (p2pPort : Nat) (d : Daemon) : Event X → Daemon → Sends → Prop where
  | move {event : Event X} {phase : Phase} : Moves d event phase →
      Acts p2pPort d event { d with phase } []
  | bcastPeers : d.phase = .bcastPeers → d.p2p.toBcastPeers = true →
      Acts p2pPort d .bcastPeers
        { d with p2p := { d.p2p with toBcastPeers := false }, phase := .bcastHashes }
        (d.p2p.myPeers.map fun addr => (addr, .peer (localhost p2pPort :: d.p2p.myPeers)))
  | bcastHashes : d.phase = .bcastHashes → d.p2p.toBcastHashes = true →
      Acts p2pPort d .bcastHashes
        { d with p2p := { d.p2p with toBcastHashes := false }, phase := .sendDbRequests }
        (d.p2p.myPeers.map fun addr => (addr, .hash (localhost p2pPort) d.store.myHashes))
  | sendDbRequests : d.phase = .sendDbRequests → d.p2p.toSendDbRequests = true →
      (∀ r ∈ d.p2p.dbRequests, r.1 ∈ d.p2p.myPeers) →
      Acts p2pPort d .sendDbRequests
        { d with p2p := { d.p2p with dbRequests := [], toSendDbRequests := false }, phase := .poll }
        (d.p2p.dbRequests.map fun r => (r.1, .req (localhost p2pPort) r.2))
  | recvPeer {addrs : List Bytes} {p2p : P2p} : d.phase = .poll →
      Learned p2pPort addrs d.p2p p2p →
      Acts p2pPort d (.answerP2p (.peer addrs)) { d with p2p, phase := .answered } []
  | recvHash {sender : Bytes} {wanted : List Bytes} {p2p : P2p} : d.phase = .poll →
      Noted d.store.myHashes sender wanted d.p2p p2p →
      Acts p2pPort d (.answerP2p (.hash sender wanted)) { d with p2p, phase := .answered } []
  | recvReq {addr : Bytes} {wanted : List Bytes} : d.phase = .poll →
      (X.ndebug = true ∨ wanted ≠ []) →
      Acts p2pPort d (.answerP2p (.req addr wanted))
        { d with phase := .answered, toDb := d.toDb ++ [.get addr wanted] } []
  | recvDoc {docs : List Bytes} : d.phase = .poll → (X.ndebug = true ∨ docs ≠ []) →
      Acts p2pPort d (.answerP2p (.doc docs))
        { d with phase := .answered
                 toDb := d.toDb ++ [.ins (unknownDocs X d.store.myHashes docs)] } []
  | answerPut {addr : Bytes} {docs : List Bytes} {rest : List DbRep} :
      d.phase = .poll ∨ d.phase = .answered → d.toP2p = .put addr docs :: rest →
      (X.ndebug = true ∨ docs ≠ []) → addr ∈ d.p2p.myPeers →
      Acts p2pPort d .answerDb { d with toP2p := rest, phase := .bcastPeers } [(addr, .doc docs)]
  | answerNew {rest : List DbRep} :
      d.phase = .poll ∨ d.phase = .answered → d.toP2p = .new :: rest →
      Acts p2pPort d .answerDb
        { d with p2p := { d.p2p with toBcastHashes := true }, toP2p := rest,
                 phase := .bcastPeers } []
  | get {addr : Bytes} {wanted : List Bytes} {rest : List DbReq} :
      d.toDb = .get addr wanted :: rest → (X.ndebug = true ∨ wanted ≠ []) →
      Acts p2pPort d .dbPeerOp
        { d with toDb := rest
                 toP2p := d.toP2p ++ [.put addr (wanted.filterMap (entryUnder X d.store.db))] } []
  | insKnown {docs : List Bytes} {rest : List DbReq} : d.toDb = .ins docs :: rest →
      unknownDocs X d.store.myHashes docs = [] →
      Acts p2pPort d .dbPeerOp { d with toDb := rest } []
  | insNew {docs : List Bytes} {rest : List DbReq} {store : Store} :
      d.toDb = .ins docs :: rest → unknownDocs X d.store.myHashes docs ≠ [] →
      Piac.dbPeerOp X d.store (.ins docs) = .ok (store, [.new]) →
      Acts p2pPort d .dbPeerOp { d with store, toDb := rest, toP2p := d.toP2p ++ [.new] } []
  | client {cmd : ClientCmd X} {store : Store} : clientOp X d.store cmd = .ok (store, [.new]) →
      Acts p2pPort d (.client cmd) { d with store, toP2p := d.toP2p ++ [.new] } []
  | fault {event : Event X} {f : Fault} {d' : Daemon} : Faults d event f → d'.fault = some f →
      d'.p2p = d.p2p → d'.store = d.store → d'.toDb <:+ d.toDb → d'.toP2p <:+ d.toP2p →
      Acts p2pPort d event d' []

theorem settle_eq {α : Type} {d d' : Daemon} {result : Except Fault α}
    {after : α → Daemon × Sends} {sends : Sends} (settled : d.settle result after = (d', sends)) :
    (∃ a, result = .ok a ∧ after a = (d', sends)) ∨
      ∃ f, result = .error f ∧ d' = { d with fault := some f } ∧ sends = [] := by
  cases result with
  | ok a => exact .inl ⟨a, rfl, settled⟩
  | error f => cases settled; exact .inr ⟨f, rfl, rfl, rfl⟩

/-- One message of a peer. -/
theorem answerP2p_acts {p2pPort : Nat} {d d' : Daemon} {msg : PeerMsg} {sends : Sends}
    (polling : d.phase = .poll)
    (settled : d.settle (p2pAnswerP2p X p2pPort d.store.myHashes d.p2p msg) (fun (p2p, reqs) =>
      ({ d with p2p, phase := .answered, toDb := d.toDb ++ reqs }, [])) = (d', sends)) :
    Acts p2pPort d (.answerP2p msg : Event X) d' sends := by
  rcases settle_eq settled with ⟨⟨p2p, reqs⟩, answered, shape⟩ | ⟨f, failed, rfl, rfl⟩
  · cases shape
    cases msg with
    | peer addrs =>
        simp only [p2pAnswerP2p, bind_eq_ok] at answered
        obtain ⟨p2p', learned, shape⟩ := answered
        cases shape
        simpa using Acts.recvPeer (X := X) polling (learnPeers_learned learned)
    | hash sender wanted =>
        cases answered
        simpa using Acts.recvHash (X := X) polling
          (noteHashes_noted d.store.myHashes sender wanted d.p2p)
    | req addr wanted =>
        simp only [p2pAnswerP2p, bind_eq_ok] at answered
        obtain ⟨⟨⟩, asserted, shape⟩ := answered
        cases shape
        exact .recvReq polling (by simpa using Platform.assert_eq_ok.mp asserted)
    | doc docs =>
        simp only [p2pAnswerP2p, bind_eq_ok] at answered
        obtain ⟨⟨⟩, asserted, shape⟩ := answered
        cases shape
        exact .recvDoc polling (by simpa using Platform.assert_eq_ok.mp asserted)
  · refine .fault ?_ rfl rfl rfl (List.suffix_refl _) (List.suffix_refl _)
    cases msg with
    | peer addrs =>
        simp only [p2pAnswerP2p, bind_eq_error] at failed
        rcases failed with learned | ⟨_, -, impossible⟩
        · obtain ⟨rfl, a, member, refused⟩ := learnPeers_error learned
          exact .peer member refused
        · cases impossible
    | hash sender wanted => cases failed
    | req addr wanted =>
        simp only [p2pAnswerP2p, bind_eq_error] at failed
        rcases failed with asserted | ⟨_, -, impossible⟩
        · obtain ⟨⟨debug, empty⟩, rfl⟩ := Platform.assert_eq_error.mp asserted
          obtain rfl : wanted = [] := by simpa using empty
          exact .req debug
        · cases impossible
    | doc docs =>
        simp only [p2pAnswerP2p, bind_eq_error] at failed
        rcases failed with asserted | ⟨_, -, impossible⟩
        · obtain ⟨⟨debug, empty⟩, rfl⟩ := Platform.assert_eq_error.mp asserted
          obtain rfl : docs = [] := by simpa using empty
          exact .doc debug
        · cases impossible

/-- One message of the db thread. -/
theorem answerDb_acts {p2pPort : Nat} {d d' : Daemon} {rep : DbRep} {rest : List DbRep}
    {sends : Sends} (ready : d.phase = .poll ∨ d.phase = .answered) (queue : d.toP2p = rep :: rest)
    (settled : ({ d with toP2p := rest } : Daemon).settle (p2pAnswerDb X d.p2p rep)
      (fun (p2p, sends) => ({ d with toP2p := rest, p2p, phase := .bcastPeers }, sends)) =
        (d', sends)) :
    Acts p2pPort d (.answerDb : Event X) d' sends := by
  have inQueue : rep ∈ d.toP2p := by simp [queue]
  have shorter : rest <:+ d.toP2p := by simp [queue]
  rcases settle_eq settled with ⟨⟨p2p, sends'⟩, answered, shape⟩ | ⟨f, failed, rfl, rfl⟩
  · cases shape
    cases rep with
    | new => cases answered; exact .answerNew ready queue
    | put addr docs =>
        simp only [p2pAnswerDb, bind_eq_ok] at answered
        obtain ⟨⟨⟩, asserted, send, sent, shape⟩ := answered
        cases shape
        unfold sendAt at sent
        split at sent
        · rename_i known
          cases sent
          exact .answerPut ready queue (by simpa using Platform.assert_eq_ok.mp asserted) known
        · cases sent
  · refine .fault ?_ rfl rfl rfl (List.suffix_refl _) shorter
    cases rep with
    | new => cases failed
    | put addr docs =>
        simp only [p2pAnswerDb, bind_eq_error] at failed
        rcases failed with asserted | ⟨⟨⟩, -, sent | ⟨_, -, impossible⟩⟩
        · obtain ⟨⟨debug, empty⟩, rfl⟩ := Platform.assert_eq_error.mp asserted
          obtain rfl : docs = [] := by simpa using empty
          exact .put debug inQueue
        · unfold sendAt at sent
          split at sent
          · cases sent
          · cases sent; exact .reply inQueue (by assumption)
        · cases impossible

/-- One request of the p2p thread. -/
theorem dbPeerOp_acts {p2pPort : Nat} {d d' : Daemon} {req : DbReq} {rest : List DbReq}
    {sends : Sends} (mirrors : Mirrors X d.store) (queue : d.toDb = req :: rest)
    (settled : ({ d with toDb := rest } : Daemon).settle (Piac.dbPeerOp X d.store req)
      (fun (store, reps) => ({ d with toDb := rest, store, toP2p := d.toP2p ++ reps }, [])) =
        (d', sends)) :
    Acts p2pPort d (.dbPeerOp : Event X) d' sends := by
  rcases settle_eq settled with ⟨⟨store, reps⟩, done, shape⟩ | ⟨f, failed, rfl, rfl⟩
  · cases shape
    cases req with
    | get addr wanted =>
        have checked := done
        simp only [Piac.dbPeerOp, bind_eq_ok] at checked
        obtain ⟨⟨⟩, asserted, -⟩ := checked
        obtain ⟨rfl, rfl⟩ := dbPeerOp_get mirrors done
        exact .get queue (by simpa using Platform.assert_eq_ok.mp asserted)
    | ins docs =>
        rcases dbPeerOp_ins mirrors done with ⟨nothing, rfl, rfl⟩ | ⟨something, -, rfl, -⟩
        · have acts : Acts p2pPort d (.dbPeerOp : Event X) _ _ := .insKnown queue nothing
          simpa using acts
        · exact .insNew queue something done
  · exact .fault (.peerOp (by simp [queue]) (dbPeerOp_error failed)) rfl rfl rfl
      (by simp [queue]) (List.suffix_refl _)

/-- **`Acts` is complete**: an event that is enabled does one of these things. -/
theorem act_acts {p2pPort : Nat} {d d' : Daemon} {event : Event X} {sends : Sends}
    (mirrors : Mirrors X d.store) (acted : d.act p2pPort event = some (d', sends)) :
    d.fault = none ∧ Acts p2pPort d event d' sends := by
  unfold Daemon.act at acted
  split at acted
  · rename_i running
    refine ⟨running, ?_⟩
    cases event with
    | bcastPeers =>
        simp only [Daemon.actRunning, Option.ite_none_right_eq_some] at acted
        obtain ⟨here, acted⟩ := acted
        unfold p2pBcastPeers at acted
        split at acted
        · cases acted; exact .bcastPeers here (by assumption)
        · rename_i unset
          cases acted
          exact .move (.bcastPeers here (Bool.eq_false_of_not_eq_true unset))
    | bcastHashes =>
        simp only [Daemon.actRunning, Option.ite_none_right_eq_some] at acted
        obtain ⟨here, acted⟩ := acted
        unfold p2pBcastHashes at acted
        split at acted
        · cases acted; exact .bcastHashes here (by assumption)
        · rename_i unset
          cases acted
          exact .move (.bcastHashes here (Bool.eq_false_of_not_eq_true unset))
    | sendDbRequests =>
        simp only [Daemon.actRunning, Option.ite_none_right_eq_some] at acted
        obtain ⟨here, acted⟩ := acted
        unfold p2pSendDbRequests at acted
        split at acted
        · rename_i flag
          rcases settle_eq (Option.some.inj acted) with ⟨⟨p2p, sends'⟩, sent, shape⟩ |
            ⟨f, failed, rfl, rfl⟩
          · cases shape
            simp only [bind_eq_ok] at sent
            obtain ⟨sends', sent, shape⟩ := sent
            cases shape
            obtain ⟨rfl, known⟩ := mapM_sendAt sent
            exact .sendDbRequests here flag known
          · simp only [bind_eq_error] at failed
            rcases failed with sent | ⟨_, -, impossible⟩
            · obtain ⟨rfl, r, member, missing⟩ := mapM_sendAt_error sent
              exact .fault (.request here flag member missing) rfl rfl rfl (List.suffix_refl _)
                (List.suffix_refl _)
            · cases impossible
        · rename_i unset
          cases acted
          exact .move (.sendDbRequests here (Bool.eq_false_of_not_eq_true unset))
    | answerP2p msg =>
        simp only [Daemon.actRunning, Option.ite_none_right_eq_some] at acted
        obtain ⟨here, acted⟩ := acted
        exact answerP2p_acts here (Option.some.inj acted)
    | answerDb =>
        simp only [Daemon.actRunning, Option.ite_none_right_eq_some] at acted
        obtain ⟨here, acted⟩ := acted
        split at acted
        · cases acted
        · exact answerDb_acts here (by assumption) (Option.some.inj acted)
    | pass =>
        simp only [Daemon.actRunning, Option.ite_none_right_eq_some] at acted
        obtain ⟨here, acted⟩ := acted
        cases acted
        exact .move (.pass here)
    | dbPeerOp =>
        simp only [Daemon.actRunning] at acted
        split at acted
        · cases acted
        · exact dbPeerOp_acts mirrors (by assumption) (Option.some.inj acted)
    | client cmd =>
        simp only [Daemon.actRunning] at acted
        rcases settle_eq (Option.some.inj acted) with ⟨⟨store, notes⟩, done, shape⟩ |
          ⟨f, failed, rfl, rfl⟩
        · cases shape
          cases clientOp_notes done
          exact .client done
        · obtain ⟨debug, nobody, rfl⟩ := clientOp_error mirrors failed
          exact .fault (.client debug nobody) rfl rfl rfl (List.suffix_refl _) (List.suffix_refl _)
  · cases acted

theorem Acts.mirrors {p2pPort : Nat} {d d' : Daemon} {event : Event X} {sends : Sends}
    (acts : Acts p2pPort d event d' sends) (mirrors : Mirrors X d.store) :
    Mirrors X d'.store := by
  cases acts with
  | insNew queue new done => exact mirrors.dbPeerOp done
  | client done => exact mirrors.clientOp done
  | fault _ _ _ same => rw [same]; exact mirrors
  | _ => exact mirrors

end Piac
