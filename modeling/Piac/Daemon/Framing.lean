/-
# Daemon.Framing — what is written on a hop is what is read there

Seven kinds of message are lists of frames with a count in front, written by one
function and read by another. `readPeerMsg`, `readDbReq` and `readDbRep` are the
reading halves of the three handlers, with the frames they leave; a handler does on
frames what it does on the message they are read as (`p2pAnswerP2p_reads`,
`dbPeerOp_reads`, `p2pAnswerDb_reads`).

* `framing_consistent`: every message is read back from its frames with nothing left,
  except that a Debug build asserts that the count of five of the seven is not zero;
  the functions that write to a hop write these frames; and the documents of a DOC are
  those `db_get_docs` found for the REQ it answers.
-/
import Piac.Daemon.Reference
import Piac.Daemon.Wire

namespace Piac

set_option autoImplicit false

open Piac.Theory.CppString

/-! ## Writing -/

/-- The frames a daemon writes to the socket of a peer. -/
def PeerMsg.written : PeerMsg → Frames
  | .peer addrs => bytes "PEER" :: stdToString addrs.length :: addrs
  | .hash sender hashes => bytes "HASH" :: sender :: stdToString hashes.length :: hashes
  | .req addr hashes => bytes "REQ" :: addr :: stdToString hashes.length :: hashes
  | .doc docs => bytes "DOC" :: stdToString docs.length :: docs

/-- The frames of a request to the db thread. -/
def DbReq.frames : DbReq → Frames
  | .get addr hashes => bytes "GET" :: addr :: stdToString hashes.length :: hashes
  | .ins docs => bytes "INS" :: stdToString docs.length :: docs

/-- A message for a peer, written. -/
def framed (send : Bytes × PeerMsg) : Bytes × Frames := (send.1, send.2.written)

namespace Wire

/-- `p2p_bcast_peers`: the count is that of `my_peers` and one more. -/
def p2pBcastPeers (p2pPort : Nat) (st : P2p) : P2p × List (Bytes × Frames) :=
  if st.toBcastPeers then
    ({ st with toBcastPeers := false },
      st.myPeers.map fun addr =>
        (addr, bytes "PEER" :: stdToString (st.myPeers.length + 1) :: localhost p2pPort ::
          st.myPeers))
  else (st, [])

def p2pBcastHashes (p2pPort : Nat) (myHashes : List Bytes) (st : P2p) :
    P2p × List (Bytes × Frames) :=
  if st.toBcastHashes then
    ({ st with toBcastHashes := false },
      st.myPeers.map fun addr =>
        (addr, bytes "HASH" :: localhost p2pPort :: stdToString myHashes.length :: myHashes))
  else (st, [])

def p2pSendDbRequests (p2pPort : Nat) (st : P2p) :
    Except Fault (P2p × List (Bytes × Frames)) :=
  if st.toSendDbRequests then do
    let sends ← st.dbRequests.mapM fun (addr, hashes) =>
      sendAt st addr
        (bytes "REQ" :: localhost p2pPort :: stdToString hashes.length :: hashes)
    return ({ st with dbRequests := [], toSendDbRequests := false }, sends)
  else .ok (st, [])

/-- The broadcasts and the requests write the messages of `Daemon.P2pThread`. -/
theorem p2pBcastPeers_written (p2pPort : Nat) (st : P2p) :
    p2pBcastPeers p2pPort st =
      ((Piac.p2pBcastPeers p2pPort st).1, (Piac.p2pBcastPeers p2pPort st).2.map framed) := by
  unfold p2pBcastPeers Piac.p2pBcastPeers
  split
  · rw [List.map_map]
    rfl
  · rfl

theorem p2pBcastHashes_written (p2pPort : Nat) (myHashes : List Bytes) (st : P2p) :
    p2pBcastHashes p2pPort myHashes st = ((Piac.p2pBcastHashes p2pPort myHashes st).1,
      (Piac.p2pBcastHashes p2pPort myHashes st).2.map framed) := by
  unfold p2pBcastHashes Piac.p2pBcastHashes
  split
  · rw [List.map_map]
    rfl
  · rfl

theorem mapM_sendAt_written (p2pPort : Nat) (st : P2p) (requests : List (Bytes × List Bytes)) :
    (requests.mapM fun (addr, hashes) => sendAt st addr
      (bytes "REQ" :: localhost p2pPort :: stdToString hashes.length :: hashes)) =
    (List.map framed) <$> requests.mapM fun request =>
      sendAt st request.1 (PeerMsg.req (localhost p2pPort) request.2) := by
  induction requests with
  | nil => rfl
  | cons request rest ih =>
      rw [List.mapM_cons, List.mapM_cons, ih]
      unfold sendAt
      by_cases known : request.1 ∈ st.myPeers
      · simp only [if_pos known]
        cases rest.mapM fun request : Bytes × List Bytes =>
          if request.1 ∈ st.myPeers then
            (Except.ok (request.1, PeerMsg.req (localhost p2pPort) request.2) :
              Except Fault (Bytes × PeerMsg))
          else .error .mapAt <;> rfl
      · simp only [if_neg known]
        rfl

theorem p2pSendDbRequests_written (p2pPort : Nat) (st : P2p) :
    p2pSendDbRequests p2pPort st =
      (fun r => (r.1, r.2.map framed)) <$> Piac.p2pSendDbRequests p2pPort st := by
  unfold p2pSendDbRequests Piac.p2pSendDbRequests
  split
  · rw [mapM_sendAt_written]
    cases st.dbRequests.mapM fun request =>
      sendAt st request.1 (PeerMsg.req (localhost p2pPort) request.2) <;> rfl
  · rfl

end Wire

/-! ## Reading -/

/-- `while (num-- != 0) { msg >> frame; … }`: the frames, and those it leaves. -/
def takeFrames : Nat → Frames → Except Fault (Frames × Frames)
  | 0, msg => .ok ([], msg)
  | num + 1, msg => do
      let (frame, msg) ← next msg
      let (frames, msg) ← takeFrames num msg
      return (frame :: frames, msg)

/-- A count, what the handler asserts of it, and the frames it counts. -/
def readCounted (assertion : Nat → Except Fault Unit) (msg : Frames) :
    Except Fault (Frames × Frames) := do
  let (size, msg) ← next msg
  let num ← readSize size
  assertion num
  takeFrames num msg

section Readers

variable (X : Platform)

/-- What `p2p_answer_p2p` reads; `none` is an unknown command. -/
def readPeerMsg (msg : Frames) : Except Fault (Option PeerMsg × Frames) := do
  let (_, msg) ← next msg
  let (cmd, msg) ← next msg
  if cmd = bytes "PEER" then
    let (addrs, msg) ← readCounted (fun _ => .ok ()) msg
    return (some (.peer addrs), msg)
  else if cmd = bytes "HASH" then
    let (sender, msg) ← next msg
    let (hashes, msg) ← readCounted (fun _ => .ok ()) msg
    return (some (.hash sender hashes), msg)
  else if cmd = bytes "REQ" then
    let (addr, msg) ← next msg
    let (hashes, msg) ← readCounted (fun num => X.assert .req (0 < num)) msg
    return (some (.req addr hashes), msg)
  else if cmd = bytes "DOC" then
    let (docs, msg) ← readCounted (fun num => X.assert .doc (0 < num)) msg
    return (some (.doc docs), msg)
  else return (none, msg)

/-- What `db_peer_op` reads. -/
def readDbReq (msg : Frames) : Except Fault (Option DbReq × Frames) := do
  let (cmd, msg) ← next msg
  if cmd = bytes "GET" then
    let (addr, msg) ← next msg
    let (hashes, msg) ← readCounted (fun num => X.assert .get (0 < num)) msg
    return (some (.get addr hashes), msg)
  else if cmd = bytes "INS" then
    let (docs, msg) ← readCounted (fun num => X.assert .ins (0 < num)) msg
    return (some (.ins docs), msg)
  else return (none, msg)

/-- What `p2p_answer_db` reads. -/
def readDbRep (msg : Frames) : Except Fault (Option DbRep × Frames) := do
  let (cmd, msg) ← next msg
  if cmd = bytes "PUT" then
    let (addr, msg) ← next msg
    let (docs, msg) ← readCounted (fun num => X.assert .put (0 < num)) msg
    return (some (.put addr docs), msg)
  else if cmd = bytes "NEW" then return (some .new, msg)
  else return (none, msg)

end Readers

/-! ## A counted list -/

theorem takeFrames_ok {num : Nat} {msg frames rest : Frames}
    (taken : takeFrames num msg = .ok (frames, rest)) :
    num ≤ msg.length ∧ msg.take num = frames ∧ msg.drop num = rest := by
  induction num generalizing msg frames with
  | zero => cases taken; exact ⟨Nat.zero_le _, rfl, rfl⟩
  | succ num ih =>
      cases msg with
      | nil => cases taken
      | cons frame msg =>
          simp only [takeFrames, next_cons, ok_bind, bind_eq_ok, pure_eq_ok] at taken
          obtain ⟨⟨frames', rest'⟩, later, shape⟩ := taken
          cases shape
          obtain ⟨enough, front, back⟩ := ih later
          exact ⟨Nat.succ_le_succ enough, by rw [List.take_succ_cons, front], back⟩

theorem takeFrames_length (frames : Frames) :
    takeFrames frames.length frames = .ok (frames, []) := by
  induction frames with
  | nil => rfl
  | cons frame frames ih =>
      simp only [List.length_cons, takeFrames, next_cons, ok_bind, ih]
      rfl

theorem readCounted_ok {assertion : Nat → Except Fault Unit} {msg frames rest : Frames}
    (read : readCounted assertion msg = .ok (frames, rest)) :
    ∃ size after, msg = size :: after ∧ Counted size after frames ∧ after = frames ++ rest ∧
      assertion frames.length = .ok () := by
  cases msg with
  | nil => cases read
  | cons size after =>
      simp only [readCounted, next_cons, ok_bind, bind_eq_ok] at read
      obtain ⟨num, sized, ⟨⟩, asserted, taken⟩ := read
      obtain ⟨enough, front, back⟩ := takeFrames_ok taken
      have counts : stoul size = .ok num := by
        unfold readSize at sized
        split at sized <;> cases sized
        assumption
      refine ⟨size, after, rfl, ⟨num, counts, enough, front⟩, ?_, ?_⟩
      · rw [← front, ← back, List.take_append_drop]
      · rw [← front, List.length_take_of_le enough]
        exact asserted

/-- A list is read back behind its own count. -/
theorem readCounted_self {assertion : Nat → Except Fault Unit} {items : Frames} :
    readCounted assertion (stdToString items.length :: items) = .ok (items, []) ↔
      items.length < 2 ^ 64 ∧ assertion items.length = .ok () := by
  constructor
  · intro read
    obtain ⟨size, after, shape, counted, -, asserted⟩ := readCounted_ok read
    exact ⟨counted.length_lt, asserted⟩
  · rintro ⟨fits, asserted⟩
    simp only [readCounted, next_cons, ok_bind, readSize_eq (stoul_stdToString fits), asserted,
      takeFrames_length]

/-! ## Every message -/

section Messages

variable (X : Platform)

/-- What the reader of a list asserts of it: in a Debug build it is not empty. -/
def Asserted (items : Frames) : Prop := X.ndebug = true ∨ items ≠ []

def PeerMsg.Asserted : PeerMsg → Prop
  | .peer _ => True
  | .hash _ _ => True
  | .req _ hashes => Piac.Asserted X hashes
  | .doc docs => Piac.Asserted X docs

def DbReq.items : DbReq → Frames
  | .get _ hashes => hashes
  | .ins docs => docs

def DbRep.items : DbRep → Frames
  | .put _ docs => docs
  | .new => []

def DbRep.Asserted : DbRep → Prop
  | .put _ docs => Piac.Asserted X docs
  | .new => True

variable {X}

theorem assert_length {site : Site} {items : Frames} :
    X.assert site (0 < items.length) = .ok () ↔ Asserted X items := by
  rw [Platform.assert_eq_ok, decide_eq_true_eq, List.length_pos_iff, Asserted]

/-- A message is read when its list is. -/
theorem bind_some_ok {α : Type} {make : Frames → α} {x : Except Fault (Frames × Frames)} {m : α}
    {rest : Frames} :
    (x >>= fun r => (pure (some (make r.1), r.2) : Except Fault (Option α × Frames))) =
      .ok (some m, rest) ↔ ∃ items, x = .ok (items, rest) ∧ make items = m := by
  rw [bind_eq_ok]
  constructor
  · rintro ⟨⟨items, rest'⟩, read, shape⟩
    simp only [pure_eq_ok, Prod.mk.injEq, Option.some.injEq] at shape
    obtain ⟨same, rfl⟩ := shape
    exact ⟨items, read, same⟩
  · rintro ⟨items, read, rfl⟩
    exact ⟨_, read, rfl⟩

theorem bind_some_eq {α : Type} (make : Frames → α) (injective : Function.Injective make)
    {x : Except Fault (Frames × Frames)} {items rest : Frames} :
    (x >>= fun r => (pure (some (make r.1), r.2) : Except Fault (Option α × Frames))) =
      .ok (some (make items), rest) ↔ x = .ok (items, rest) := by
  rw [bind_some_ok]
  constructor
  · rintro ⟨items', read, same⟩
    rw [read, injective same]
  · intro read
    exact ⟨items, read, rfl⟩

/-- **Every message of a daemon is read back from its frames, with nothing left.** -/
theorem readPeerMsg_frames (id : Bytes) (m : PeerMsg) :
    readPeerMsg X (m.frames id) = .ok (some m, []) ↔ m.count < 2 ^ 64 ∧ m.Asserted X := by
  cases m with
  | peer addrs =>
      simp only [readPeerMsg, PeerMsg.frames, next_cons, ok_bind, if_true]
      rw [bind_some_eq PeerMsg.peer fun _ _ same => PeerMsg.peer.inj same, readCounted_self]
      exact and_congr_right fun _ => iff_of_true rfl trivial
  | hash sender hashes =>
      simp only [readPeerMsg, PeerMsg.frames, next_cons, ok_bind]
      rw [if_neg hash_ne, if_pos trivial,
        bind_some_eq (PeerMsg.hash sender) fun _ _ same => (PeerMsg.hash.inj same).2,
        readCounted_self]
      exact and_congr_right fun _ => iff_of_true rfl trivial
  | req addr hashes =>
      simp only [readPeerMsg, PeerMsg.frames, next_cons, ok_bind]
      rw [if_neg req_ne.1, if_neg req_ne.2, if_pos trivial,
        bind_some_eq (PeerMsg.req addr) fun _ _ same => (PeerMsg.req.inj same).2,
        readCounted_self, assert_length]
      exact Iff.rfl
  | doc docs =>
      simp only [readPeerMsg, PeerMsg.frames, next_cons, ok_bind]
      rw [if_neg doc_ne.1, if_neg doc_ne.2.1, if_neg doc_ne.2.2, if_pos trivial,
        bind_some_eq PeerMsg.doc fun _ _ same => PeerMsg.doc.inj same, readCounted_self,
        assert_length]
      exact Iff.rfl

theorem readDbReq_frames (req : DbReq) :
    readDbReq X req.frames = .ok (some req, []) ↔
      req.items.length < 2 ^ 64 ∧ Asserted X req.items := by
  have ins : ¬ bytes "INS" = bytes "GET" := by decide
  cases req with
  | get addr hashes =>
      simp only [readDbReq, DbReq.frames, next_cons, ok_bind]
      rw [if_pos trivial, bind_some_eq (DbReq.get addr) fun _ _ same => (DbReq.get.inj same).2,
        readCounted_self, assert_length]
      exact Iff.rfl
  | ins docs =>
      simp only [readDbReq, DbReq.frames, next_cons, ok_bind]
      rw [if_neg ins, if_pos trivial, bind_some_eq DbReq.ins fun _ _ same => DbReq.ins.inj same,
        readCounted_self, assert_length]
      exact Iff.rfl

theorem readDbRep_frames (rep : DbRep) :
    readDbRep X rep.frames = .ok (some rep, []) ↔
      rep.items.length < 2 ^ 64 ∧ rep.Asserted X := by
  cases rep with
  | put addr docs =>
      simp only [readDbRep, DbRep.frames, next_cons, ok_bind]
      rw [if_pos trivial, bind_some_eq (DbRep.put addr) fun _ _ same => (DbRep.put.inj same).2,
        readCounted_self, assert_length]
      exact Iff.rfl
  | new => exact iff_of_true rfl ⟨by decide, trivial⟩

/-! ## Handlers on frames -/

theorem readPeerMsg_parses {msg rest : Frames} {m : PeerMsg}
    (read : readPeerMsg X msg = .ok (some m, rest)) : Parses msg m := by
  rcases msg with _ | ⟨id, _ | ⟨cmd, msg⟩⟩
  · cases read
  · cases read
  · simp only [readPeerMsg, next_cons, ok_bind] at read
    by_cases peer : cmd = bytes "PEER"
    · rw [if_pos peer] at read
      obtain ⟨addrs, taken, rfl⟩ := bind_some_ok.mp read
      obtain ⟨size, after, rfl, counted, -, -⟩ := readCounted_ok taken
      exact peer ▸ .peer counted
    rw [if_neg peer] at read
    by_cases hash : cmd = bytes "HASH"
    · rw [if_pos hash] at read
      rcases msg with _ | ⟨sender, msg⟩
      · cases read
      · obtain ⟨hashes, taken, rfl⟩ := bind_some_ok.mp read
        obtain ⟨size, after, rfl, counted, -, -⟩ := readCounted_ok taken
        exact hash ▸ .hash counted
    rw [if_neg hash] at read
    by_cases req : cmd = bytes "REQ"
    · rw [if_pos req] at read
      rcases msg with _ | ⟨addr, msg⟩
      · cases read
      · obtain ⟨hashes, taken, rfl⟩ := bind_some_ok.mp read
        obtain ⟨size, after, rfl, counted, -, -⟩ := readCounted_ok taken
        exact req ▸ .req counted
    rw [if_neg req] at read
    by_cases doc : cmd = bytes "DOC"
    · rw [if_pos doc] at read
      obtain ⟨docs, taken, rfl⟩ := bind_some_ok.mp read
      obtain ⟨size, after, rfl, counted, -, -⟩ := readCounted_ok taken
      exact doc ▸ .doc counted
    · rw [if_neg doc] at read
      cases read

/-- A count with nothing left behind its list is the length of it. -/
theorem Counted.eq_length {size : Bytes} {items : Frames} (counted : Counted size items items) :
    stoul size = .ok items.length := by
  obtain ⟨num, read, enough, whole⟩ := counted
  have same : num = items.length := by
    have length := congrArg List.length whole
    rwa [List.length_take_of_le enough] at length
  rw [read, same]

theorem readDbReq_carries {msg : Frames} {req : DbReq}
    (read : readDbReq X msg = .ok (some req, [])) : DbReq.Carries msg req := by
  rcases msg with _ | ⟨cmd, msg⟩
  · cases read
  · simp only [readDbReq, next_cons, ok_bind] at read
    by_cases get : cmd = bytes "GET"
    · rw [if_pos get] at read
      rcases msg with _ | ⟨addr, msg⟩
      · cases read
      · obtain ⟨hashes, taken, rfl⟩ := bind_some_ok.mp read
        obtain ⟨size, after, rfl, counted, whole, -⟩ := readCounted_ok taken
        rw [List.append_nil] at whole
        subst whole
        exact get ▸ .get counted.eq_length
    rw [if_neg get] at read
    by_cases ins : cmd = bytes "INS"
    · rw [if_pos ins] at read
      obtain ⟨docs, taken, rfl⟩ := bind_some_ok.mp read
      obtain ⟨size, after, rfl, counted, whole, -⟩ := readCounted_ok taken
      rw [List.append_nil] at whole
      subst whole
      exact ins ▸ .ins counted.eq_length
    · rw [if_neg ins] at read
      cases read

theorem readDbRep_carries {msg : Frames} {rep : DbRep}
    (read : readDbRep X msg = .ok (some rep, [])) : DbRep.Carries msg rep := by
  rcases msg with _ | ⟨cmd, msg⟩
  · cases read
  · simp only [readDbRep, next_cons, ok_bind] at read
    by_cases put : cmd = bytes "PUT"
    · rw [if_pos put] at read
      rcases msg with _ | ⟨addr, msg⟩
      · cases read
      · obtain ⟨docs, taken, rfl⟩ := bind_some_ok.mp read
        obtain ⟨size, after, rfl, counted, whole, -⟩ := readCounted_ok taken
        rw [List.append_nil] at whole
        subst whole
        exact put ▸ .put counted.eq_length
    rw [if_neg put] at read
    by_cases new : cmd = bytes "NEW"
    · rw [if_pos new] at read
      cases read
      exact new ▸ .new
    · rw [if_neg new] at read
      cases read

/-- **A handler does on frames what it does on the message they are read as.** -/
theorem p2pAnswerP2p_reads {msg rest : Frames} {m : PeerMsg}
    (read : readPeerMsg X msg = .ok (some m, rest)) (p2pPort : Nat) (myHashes : List Bytes)
    (st : P2p) :
    Agree (fun r q => r.1 = q.1 ∧ List.Forall₂ DbReq.Carries r.2 q.2)
      (Wire.p2pAnswerP2p X p2pPort myHashes st msg) (p2pAnswerP2p X p2pPort myHashes st m) :=
  p2pAnswerP2p_parses (readPeerMsg_parses read) p2pPort myHashes st

theorem dbPeerOp_reads {msg : Frames} {req : DbReq}
    (read : readDbReq X msg = .ok (some req, [])) (s : Store) :
    Agree (fun r q => r.1 = q.1 ∧ List.Forall₂ DbRep.Carries r.2 q.2)
      (Wire.dbPeerOp X s msg) (dbPeerOp X s req) :=
  dbPeerOp_carries (readDbReq_carries read) s

theorem p2pAnswerDb_reads {msg : Frames} {rep : DbRep}
    (read : readDbRep X msg = .ok (some rep, [])) (st : P2p) :
    Agree (fun r q => r.1 = q.1 ∧ List.Forall₂ (fun send send' => send.1 = send'.1 ∧
        ∀ id, Parses (id :: send.2) send'.2) r.2 q.2)
      (Wire.p2pAnswerDb X st msg) (p2pAnswerDb X st rep) :=
  p2pAnswerDb_carries (readDbRep_carries read) st

/-! ## Relays -/

theorem readSize_length {items : Frames} (fits : items.length < 2 ^ 64) :
    readSize (stdToString items.length) = .ok items.length :=
  readSize_eq (stoul_stdToString fits)

/-- The loop takes a whole list. -/
theorem eachFrame_length {σ : Type} (body : σ → Bytes → Except Fault σ) (items : Frames) (s : σ) :
    eachFrame body items.length items s = items.foldlM body s := by
  rw [eachFrame_eq _ (Nat.le_refl _), List.take_length]

theorem decide_length_pos (items : Frames) : decide (0 < items.length) = decide (items ≠ []) := by
  rw [decide_eq_decide, List.length_pos_iff]

/-- **On the frames of a message a handler writes the frames of what it sends.** -/
theorem p2pAnswerP2p_frames {m : PeerMsg} (fits : m.count < 2 ^ 64) (id : Bytes) (p2pPort : Nat)
    (myHashes : List Bytes) (st : P2p) :
    Wire.p2pAnswerP2p X p2pPort myHashes st (m.frames id) =
      (fun r => (r.1, r.2.map DbReq.frames)) <$> p2pAnswerP2p X p2pPort myHashes st m := by
  cases m with
  | peer addrs =>
      simp only [PeerMsg.count] at fits
      simp only [Wire.p2pAnswerP2p, PeerMsg.frames, next_cons, ok_bind, readSize_length fits,
        eachFrame_length, if_true, p2pAnswerP2p]
      cases addrs.foldlM (learnPeer X p2pPort) st <;> rfl
  | hash sender hashes =>
      simp only [PeerMsg.count] at fits
      simp only [Wire.p2pAnswerP2p, PeerMsg.frames, next_cons, ok_bind, readSize_length fits,
        eachFrame_length, if_true, if_neg hash_ne, foldlM_ok]
      rfl
  | req addr hashes =>
      simp only [PeerMsg.count] at fits
      simp only [Wire.p2pAnswerP2p, PeerMsg.frames, next_cons, ok_bind, readSize_length fits,
        eachFrame_length, if_true, if_neg req_ne.1, if_neg req_ne.2, foldlM_ok, foldl_append,
        List.nil_append, decide_length_pos, p2pAnswerP2p]
      cases X.assert .req (decide (hashes ≠ [])) <;> rfl
  | doc docs =>
      simp only [PeerMsg.count] at fits
      simp only [Wire.p2pAnswerP2p, PeerMsg.frames, next_cons, ok_bind, readSize_length fits,
        eachFrame_length, if_true, if_neg doc_ne.1, if_neg doc_ne.2.1, if_neg doc_ne.2.2, foldlM_ok,
        foldl_unknown, List.nil_append, decide_length_pos, p2pAnswerP2p]
      cases X.assert .doc (decide (docs ≠ [])) <;> rfl

theorem dbPeerOp_frames {req : DbReq} (fits : req.items.length < 2 ^ 64) (s : Store) :
    Wire.dbPeerOp X s req.frames =
      (fun r => (r.1, r.2.map DbRep.frames)) <$> dbPeerOp X s req := by
  have ins : ¬ bytes "INS" = bytes "GET" := by decide
  cases req with
  | get addr hashes =>
      simp only [DbReq.items] at fits
      simp only [Wire.dbPeerOp, DbReq.frames, next_cons, ok_bind, readSize_length fits,
        eachFrame_length, if_true, foldlM_ok, foldl_append, List.nil_append, decide_length_pos,
        dbPeerOp]
      cases X.assert .get (decide (hashes ≠ [])) with
      | error f => rfl
      | ok done => cases dbGetDocs X s.db hashes <;> rfl
  | ins docs =>
      simp only [DbReq.items] at fits
      simp only [Wire.dbPeerOp, DbReq.frames, next_cons, ok_bind, readSize_length fits,
        eachFrame_length, if_true, if_neg ins, foldlM_ok, foldl_unknown, List.nil_append,
        decide_length_pos, dbPeerOp]
      cases X.assert .ins (decide (docs ≠ [])) with
      | error f => rfl
      | ok done =>
          simp only [ok_bind]
          split
          · rfl
          · cases dbPutDocs X s.db (unknownDocs X s.myHashes docs) <;> rfl

theorem p2pAnswerDb_frames {rep : DbRep} (fits : rep.items.length < 2 ^ 64) (st : P2p) :
    Wire.p2pAnswerDb X st rep.frames =
      (fun r => (r.1, r.2.map framed)) <$> p2pAnswerDb X st rep := by
  cases rep with
  | put addr docs =>
      simp only [DbRep.items] at fits
      simp only [Wire.p2pAnswerDb, DbRep.frames, next_cons, ok_bind, readSize_length fits,
        eachFrame_length, if_true, foldlM_ok, foldl_append, List.nil_append, decide_length_pos,
        p2pAnswerDb, sendAt]
      cases X.assert .put (decide (docs ≠ [])) with
      | error f => rfl
      | ok done =>
          by_cases known : addr ∈ st.myPeers
          · simp only [if_pos known]
            rfl
          · simp only [if_neg known]
            rfl
  | new => rfl

theorem map_eq_ok {α β : Type} {f : α → β} {x : Except Fault α} {b : β} :
    f <$> x = .ok b ↔ ∃ a, x = .ok a ∧ f a = b := by
  cases x with
  | error e => exact ⟨nofun, fun ⟨_, impossible, _⟩ => nomatch impossible⟩
  | ok a => simp [Functor.map, Except.map]

/-- **The documents of a DOC are those found for the hashes of the REQ**, whatever the
threads did between its steps. -/
theorem doc_of_req {addr id id' : Bytes} {hashes : List Bytes} (fits : hashes.length < 2 ^ 64)
    {p2pPort : Nat} {myHashes : List Bytes} {st st₁ st₂ st₃ : P2p} {s s₁ : Store}
    {gets puts : List Frames} {sends : List (Bytes × Frames)} {get put : Frames}
    {send : Bytes × Frames}
    (asked : Wire.p2pAnswerP2p X p2pPort myHashes st (PeerMsg.frames id (.req addr hashes)) =
      .ok (st₁, gets)) (inGets : get ∈ gets)
    (looked : Wire.dbPeerOp X s get = .ok (s₁, puts)) (inPuts : put ∈ puts)
    (answered : Wire.p2pAnswerDb X st₂ put = .ok (st₃, sends)) (inSends : send ∈ sends) :
    ∃ docs, dbGetDocs X s.db hashes = .ok docs ∧ send.1 = addr ∧
      readPeerMsg X (id' :: send.2) = .ok (some (.doc docs), []) := by
  rw [p2pAnswerP2p_frames (m := .req addr hashes) fits, map_eq_ok] at asked
  obtain ⟨r, asked, shape⟩ := asked
  simp only [p2pAnswerP2p, bind_eq_ok, pure_eq_ok] at asked
  obtain ⟨⟨⟩, -, rfl⟩ := asked
  cases shape
  cases List.mem_singleton.mp inGets
  rw [@dbPeerOp_frames X (.get addr hashes) fits, map_eq_ok] at looked
  obtain ⟨r, looked, shape⟩ := looked
  simp only [dbPeerOp, bind_eq_ok, pure_eq_ok] at looked
  obtain ⟨⟨⟩, -, docs, found, rfl⟩ := looked
  cases shape
  cases List.mem_singleton.mp inPuts
  have fits' : docs.length < 2 ^ 64 := Nat.lt_of_le_of_lt (dbGetDocs_length_le found) fits
  rw [@p2pAnswerDb_frames X (.put addr docs) fits', map_eq_ok] at answered
  obtain ⟨r, answered, shape⟩ := answered
  simp only [p2pAnswerDb, sendAt, bind_eq_ok, pure_eq_ok] at answered
  obtain ⟨⟨⟩, asserted, send', sent, rfl⟩ := answered
  split at sent
  · cases sent
    cases shape
    cases List.mem_singleton.mp inSends
    have some_ : Asserted X docs := by simpa [Asserted] using Platform.assert_eq_ok.mp asserted
    exact ⟨docs, found, rfl, (readPeerMsg_frames id' (.doc docs)).mpr ⟨fits', some_⟩⟩
  · cases sent

/-! ## All hops -/

/-- **Message framing.** A message is read back from its frames with nothing left
exactly when its count fits a `size_t` and passes the assertion of its reader; the
broadcasts, the requests and the three handlers write such frames, and the documents of
a DOC are those found for the REQ it answers. -/
theorem framing_consistent (X : Platform) :
    ((∀ id (m : PeerMsg), readPeerMsg X (m.frames id) = .ok (some m, []) ↔
        m.count < 2 ^ 64 ∧ m.Asserted X) ∧
      (∀ req : DbReq, readDbReq X req.frames = .ok (some req, []) ↔
        req.items.length < 2 ^ 64 ∧ Asserted X req.items) ∧
      ∀ rep : DbRep, readDbRep X rep.frames = .ok (some rep, []) ↔
        rep.items.length < 2 ^ 64 ∧ rep.Asserted X) ∧
    (∀ p2pPort myHashes st,
      (Wire.p2pBcastPeers p2pPort st).2 = (p2pBcastPeers p2pPort st).2.map framed ∧
      (Wire.p2pBcastHashes p2pPort myHashes st).2 =
        (p2pBcastHashes p2pPort myHashes st).2.map framed ∧
      Wire.p2pSendDbRequests p2pPort st =
        (fun r => (r.1, r.2.map framed)) <$> p2pSendDbRequests p2pPort st) ∧
    ((∀ (m : PeerMsg), m.count < 2 ^ 64 → ∀ id p2pPort myHashes st,
        Wire.p2pAnswerP2p X p2pPort myHashes st (m.frames id) =
          (fun r => (r.1, r.2.map DbReq.frames)) <$> p2pAnswerP2p X p2pPort myHashes st m) ∧
      (∀ req : DbReq, req.items.length < 2 ^ 64 → ∀ s,
        Wire.dbPeerOp X s req.frames =
          (fun r => (r.1, r.2.map DbRep.frames)) <$> dbPeerOp X s req) ∧
      ∀ rep : DbRep, rep.items.length < 2 ^ 64 → ∀ st,
        Wire.p2pAnswerDb X st rep.frames =
          (fun r => (r.1, r.2.map framed)) <$> p2pAnswerDb X st rep) ∧
    ∀ (addr id id' : Bytes) (hashes : List Bytes), hashes.length < 2 ^ 64 →
      ∀ (p2pPort : Nat) (myHashes : List Bytes) (st st₁ st₂ st₃ : P2p) (s s₁ : Store)
        (gets puts : List Frames) (sends : List (Bytes × Frames)),
      Wire.p2pAnswerP2p X p2pPort myHashes st (PeerMsg.frames id (.req addr hashes)) =
        .ok (st₁, gets) →
      ∀ get ∈ gets, Wire.dbPeerOp X s get = .ok (s₁, puts) →
      ∀ put ∈ puts, Wire.p2pAnswerDb X st₂ put = .ok (st₃, sends) →
      ∀ send ∈ sends, ∃ docs, dbGetDocs X s.db hashes = .ok docs ∧ send.1 = addr ∧
        readPeerMsg X (id' :: send.2) = .ok (some (.doc docs), []) := by
  refine ⟨⟨readPeerMsg_frames, readDbReq_frames, readDbRep_frames⟩, ?_, ⟨?_, ?_, ?_⟩, ?_⟩
  · intro p2pPort myHashes st
    refine ⟨?_, ?_, Wire.p2pSendDbRequests_written p2pPort st⟩
    · rw [Wire.p2pBcastPeers_written]
    · rw [Wire.p2pBcastHashes_written]
  · intro m fits id p2pPort myHashes st
    exact p2pAnswerP2p_frames fits id p2pPort myHashes st
  · intro req fits s
    exact dbPeerOp_frames fits s
  · intro rep fits st
    exact p2pAnswerDb_frames fits st
  · intro addr id id' hashes fits p2pPort myHashes st st₁ st₂ st₃ s s₁ gets puts sends asked get
      inGets looked put inPuts answered send inSends
    exact doc_of_req fits asked inGets looked inPuts answered inSends

end Messages

/-! ## On a platform -/

section Examples

open Reference

/-- A daemon that stores the ad of alice, and knows its peer. -/
def aliceStore (ndebug : Bool) : Store :=
  dbUpdateHashes (reference ndebug) ⟨[xapianDoc (reference ndebug) alice (ad 1)], []⟩

/-- The ad of alice goes from a REQ to a DOC in a Debug build. -/
theorem framing_consistent_alice :
    readPeerMsg (reference false)
        (PeerMsg.frames [] (.req (localhost 65091) [sha256 (aliceEntry "1")])) =
      .ok (some (.req (localhost 65091) [sha256 (aliceEntry "1")]), []) ∧
    ∃ docs, dbGetDocs (reference false) (aliceStore false).db [sha256 (aliceEntry "1")] =
        .ok docs ∧
      readPeerMsg (reference false) ([] :: [bytes "DOC", bytes "1", aliceEntry "1"]) =
        .ok (some (.doc docs), []) := by
  constructor
  · exact ((framing_consistent (reference false)).1.1 [] _).mpr
      ⟨by decide, .inr (List.cons_ne_nil _ _)⟩
  · let peers : P2p := .start [localhost 65091]
    obtain ⟨docs, found, -, read⟩ := (framing_consistent (reference false)).2.2.2
      (localhost 65091) [] [] [sha256 (aliceEntry "1")] (by decide)
      65090 [] peers peers peers peers (aliceStore false) (aliceStore false)
      [[bytes "GET", localhost 65091, bytes "1", sha256 (aliceEntry "1")]]
      [[bytes "PUT", localhost 65091, bytes "1", aliceEntry "1"]]
      [(localhost 65091, [bytes "DOC", bytes "1", aliceEntry "1"])]
      (by decide +kernel) _ (List.mem_singleton.mpr rfl)
      (by decide +kernel) _ (List.mem_singleton.mpr rfl)
      (by decide +kernel) _ (List.mem_singleton.mpr rfl)
    exact ⟨docs, found, read⟩

/-- A DOC with nothing new makes the p2p thread write an INS with the count zero, on which
the db thread of a Debug build fails. -/
theorem empty_list_fatal :
    (¬ ∀ req : DbReq, readDbReq (reference false) req.frames = .ok (some req, [])) ∧
    Wire.p2pAnswerP2p (reference false) 65090 [sha256 (aliceEntry "1")] (.start [])
        (PeerMsg.frames [] (.doc [aliceEntry "1"])) =
      .ok (.start [], [DbReq.frames (.ins [])]) ∧
    Wire.dbPeerOp (reference false) (aliceStore false) (DbReq.frames (.ins [])) =
      .error (.assertion .ins) := by
  refine ⟨fun all => ?_, by decide +kernel, by decide +kernel⟩
  have read := (readDbReq_frames (.ins [])).mp (all (.ins []))
  rcases read.2 with release | some_
  · cases release
  · exact some_ rfl

end Examples

end Piac
