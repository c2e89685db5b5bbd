/-
# Daemon.Wire — the handlers on frames

A message is a list of frames. The handlers read it frame by frame with
`zmqpp::message >>`, which throws past the last frame; the count in it, which
`std::stoul` reads, says how many frames a loop takes. The first frame of a
message of a peer is the identity that the router puts in front.

`Parses` says which messages mean a `PeerMsg`: the count can be read, and there
are as many frames as it says. On these the handlers do what the handlers of the
p2p and the db thread do on the message read (`p2pAnswerP2p_parses`,
`p2pAnswerDb_carries`, `dbPeerOp_carries`), and what a daemon writes is among them
(`parses_frames`). All other frames end in an exception or are an unknown
command.
-/
import Piac.Daemon.P2pThread

namespace Piac

set_option autoImplicit false

open Piac.Theory.CppString

abbrev Frames := List Bytes

/-- `msg >> frame`. -/
def next : Frames → Except Fault (Bytes × Frames)
  | [] => .error .pastLastFrame
  | frame :: rest => .ok (frame, rest)

/-- `stoul( size )`. -/
def readSize (size : Bytes) : Except Fault Nat :=
  match stoul size with
  | .ok num => .ok num
  | .error e => .error (.stoul e)

/-- `while (num-- != 0) { msg >> frame; … }`. -/
def eachFrame {σ : Type} (body : σ → Bytes → Except Fault σ) : Nat → Frames → σ → Except Fault σ
  | 0, _, s => .ok s
  | num + 1, msg, s => do
      let (frame, msg) ← next msg
      let s ← body s frame
      eachFrame body num msg s

namespace Wire

variable (X : Platform)

/-- `p2p_answer_p2p`: the variables after it and what it sends to the db thread. -/
def p2pAnswerP2p (p2pPort : Nat) (myHashes : List Bytes) (st : P2p) (msg : Frames) :
    Except Fault (P2p × List Frames) := do
  let (_, msg) ← next msg
  let (cmd, msg) ← next msg
  if cmd = bytes "PEER" then
    let (size, msg) ← next msg
    let num ← readSize size
    let st ← eachFrame (learnPeer X p2pPort) num msg st
    return (st, [])
  else if cmd = bytes "HASH" then
    let (sender, msg) ← next msg
    let (size, msg) ← next msg
    let num ← readSize size
    let st ← eachFrame (fun st hash => .ok (noteHash myHashes sender st hash)) num msg st
    return (st, [])
  else if cmd = bytes "REQ" then
    let (addr, msg) ← next msg
    let (size, msg) ← next msg
    let num ← readSize size
    X.assert .req (0 < num)
    let hashes ← eachFrame (fun hashes hash => .ok (hashes ++ [hash])) num msg []
    -- the count goes on as it came
    return (st, [bytes "GET" :: addr :: size :: hashes])
  else if cmd = bytes "DOC" then
    let (size, msg) ← next msg
    let num ← readSize size
    X.assert .doc (0 < num)
    let docs ← eachFrame (fun docs doc =>
      .ok (if X.sha256 doc ∈ myHashes then docs else docs ++ [doc])) num msg []
    return (st, [bytes "INS" :: stdToString docs.length :: docs])
  else return (st, [])

/-- `p2p_answer_db`: the variables after it and what it sends to peers. -/
def p2pAnswerDb (st : P2p) (msg : Frames) : Except Fault (P2p × List (Bytes × Frames)) := do
  let (cmd, msg) ← next msg
  if cmd = bytes "PUT" then
    let (addr, msg) ← next msg
    let (size, msg) ← next msg
    let num ← readSize size
    X.assert .put (0 < num)
    let docs ← eachFrame (fun docs doc => .ok (docs ++ [doc])) num msg []
    let send ← sendAt st addr (bytes "DOC" :: size :: docs)
    return (st, [send])
  else if cmd = bytes "NEW" then return ({ st with toBcastHashes := true }, [])
  else return (st, [])

/-- `db_peer_op`: the store after it and what it sends back. -/
def dbPeerOp (s : Store) (msg : Frames) : Except Fault (Store × List Frames) := do
  let (cmd, msg) ← next msg
  if cmd = bytes "GET" then
    let (addr, msg) ← next msg
    let (size, msg) ← next msg
    let num ← readSize size
    X.assert .get (0 < num)
    let hashes ← eachFrame (fun hashes hash => .ok (hashes ++ [hash])) num msg []
    let docs ← dbGetDocs X s.db hashes
    return (s, [bytes "PUT" :: addr :: stdToString docs.length :: docs])
  else if cmd = bytes "INS" then
    let (size, msg) ← next msg
    let num ← readSize size
    X.assert .ins (0 < num)
    let docs ← eachFrame (fun docs doc =>
      .ok (if X.sha256 doc ∈ s.myHashes then docs else docs ++ [doc])) num msg []
    if docs = [] then return (s, [])
    else
      let db ← dbPutDocs X s.db docs
      return (dbUpdateHashes X { s with db }, [[bytes "NEW"]])
  else return (s, [])

end Wire

/-! ## Which frames mean a message -/

/-- The frames of a counted list: the count can be read, and the list is as long. -/
def Counted (size : Bytes) (msg items : Frames) : Prop :=
  ∃ num, stoul size = .ok num ∧ num ≤ msg.length ∧ msg.take num = items

/-- Frames that mean a message of a peer. What follows the counted ones is not read. -/
inductive Parses : Frames → PeerMsg → Prop where
  | peer {id size : Bytes} {msg addrs : Frames} : Counted size msg addrs →
      Parses (id :: bytes "PEER" :: size :: msg) (.peer addrs)
  | hash {id sender size : Bytes} {msg hashes : Frames} : Counted size msg hashes →
      Parses (id :: bytes "HASH" :: sender :: size :: msg) (.hash sender hashes)
  | req {id addr size : Bytes} {msg hashes : Frames} : Counted size msg hashes →
      Parses (id :: bytes "REQ" :: addr :: size :: msg) (.req addr hashes)
  | doc {id size : Bytes} {msg docs : Frames} : Counted size msg docs →
      Parses (id :: bytes "DOC" :: size :: msg) (.doc docs)

/-- A command that `p2p_answer_p2p` only logs. -/
inductive UnknownCmd : Frames → Prop where
  | mk {id cmd : Bytes} {msg : Frames} : cmd ≠ bytes "PEER" → cmd ≠ bytes "HASH" →
      cmd ≠ bytes "REQ" → cmd ≠ bytes "DOC" → UnknownCmd (id :: cmd :: msg)

/-- The frames of a request to the db thread. -/
inductive DbReq.Carries : Frames → DbReq → Prop where
  | get {addr size : Bytes} {hashes : Frames} : stoul size = .ok hashes.length →
      DbReq.Carries (bytes "GET" :: addr :: size :: hashes) (.get addr hashes)
  | ins {size : Bytes} {docs : Frames} : stoul size = .ok docs.length →
      DbReq.Carries (bytes "INS" :: size :: docs) (.ins docs)

/-- The frames of a message of the db thread. -/
inductive DbRep.Carries : Frames → DbRep → Prop where
  | put {addr size : Bytes} {docs : Frames} : stoul size = .ok docs.length →
      DbRep.Carries (bytes "PUT" :: addr :: size :: docs) (.put addr docs)
  | new : DbRep.Carries [bytes "NEW"] .new

/-- The frames a daemon writes, behind the identity its peer's router adds. -/
def PeerMsg.frames (id : Bytes) : PeerMsg → Frames
  | .peer addrs => id :: bytes "PEER" :: stdToString addrs.length :: addrs
  | .hash sender hashes => id :: bytes "HASH" :: sender :: stdToString hashes.length :: hashes
  | .req addr hashes => id :: bytes "REQ" :: addr :: stdToString hashes.length :: hashes
  | .doc docs => id :: bytes "DOC" :: stdToString docs.length :: docs

/-- The frames the db thread writes. -/
def DbRep.frames : DbRep → Frames
  | .put addr docs => bytes "PUT" :: addr :: stdToString docs.length :: docs
  | .new => [bytes "NEW"]

/-- The number a message counts. -/
def PeerMsg.count : PeerMsg → Nat
  | .peer addrs => addrs.length
  | .hash _ hashes => hashes.length
  | .req _ hashes => hashes.length
  | .doc docs => docs.length

theorem counted_self {items : Frames} (fits : items.length < 2 ^ 64) :
    Counted (stdToString items.length) items items :=
  ⟨_, stoul_stdToString fits, Nat.le_refl _, List.take_length⟩

/-- **What a daemon writes is read as it was meant.** -/
theorem parses_frames (id : Bytes) {m : PeerMsg} (fits : m.count < 2 ^ 64) :
    Parses (m.frames id) m := by
  cases m with
  | peer addrs => exact .peer (counted_self fits)
  | hash sender hashes => exact .hash (counted_self fits)
  | req addr hashes => exact .req (counted_self fits)
  | doc docs => exact .doc (counted_self fits)

/-! ## Handlers that agree -/

/-- Both end the process with the same fault, or both return and the results are related. -/
inductive Agree {α β : Type} (R : α → β → Prop) : Except Fault α → Except Fault β → Prop where
  | ok {a : α} {b : β} : R a b → Agree R (.ok a) (.ok b)
  | error (f : Fault) : Agree R (.error f) (.error f)

theorem Agree.refl {α : Type} (x : Except Fault α) : Agree Eq x x := by
  cases x with
  | ok a => exact .ok rfl
  | error f => exact .error f

theorem Agree.bind {α β γ δ : Type} {R : α → β → Prop} {S : γ → δ → Prop} {x : Except Fault α}
    {y : Except Fault β} {f : α → Except Fault γ} {g : β → Except Fault δ} (first : Agree R x y)
    (rest : ∀ a b, R a b → Agree S (f a) (g b)) : Agree S (x >>= f) (y >>= g) := by
  cases first with
  | ok related => exact rest _ _ related
  | error f => exact .error f

theorem ok_bind {α β : Type} (a : α) (f : α → Except Fault β) : (Except.ok a >>= f) = f a := rfl

theorem next_cons (frame : Bytes) (msg : Frames) : next (frame :: msg) = .ok (frame, msg) := rfl

theorem readSize_eq {size : Bytes} {num : Nat} (read : stoul size = .ok num) :
    readSize size = .ok num := by
  rw [readSize, read]

/-- The loop takes the frames it counts. -/
theorem eachFrame_eq {σ : Type} (body : σ → Bytes → Except Fault σ) {num : Nat} {msg : Frames}
    (enough : num ≤ msg.length) (s : σ) :
    eachFrame body num msg s = (msg.take num).foldlM body s := by
  induction num generalizing msg s with
  | zero => rfl
  | succ num ih =>
      cases msg with
      | nil => cases enough
      | cons frame msg =>
          have later := fun s => ih (Nat.le_of_succ_le_succ enough) s
          simp only [eachFrame, next, List.take_succ_cons, List.foldlM_cons]
          exact congrArg _ (funext later)

/-- A body that always goes on. -/
theorem foldlM_ok {σ : Type} (body : σ → Bytes → σ) (items : Frames) (s : σ) :
    items.foldlM (fun s item => (.ok (body s item) : Except Fault σ)) s =
      .ok (items.foldl body s) := by
  induction items generalizing s with
  | nil => rfl
  | cons item items ih => exact ih _

theorem foldl_append (items before : Frames) :
    items.foldl (fun items item => items ++ [item]) before = before ++ items := by
  induction items generalizing before with
  | nil => simp
  | cons item items ih => simp [ih]

theorem foldl_unknown (X : Platform) (myHashes items before : Frames) :
    items.foldl (fun docs doc => if X.sha256 doc ∈ myHashes then docs else docs ++ [doc]) before =
      before ++ unknownDocs X myHashes items := by
  induction items generalizing before with
  | nil => simp [unknownDocs]
  | cons item items ih =>
      rw [List.foldl_cons, ih]
      by_cases known : X.sha256 item ∈ myHashes <;> simp [unknownDocs, known]

theorem Counted.length_lt {size : Bytes} {msg items : Frames} (counted : Counted size msg items) :
    items.length < 2 ^ 64 := by
  obtain ⟨num, read, enough, rfl⟩ := counted
  rw [List.length_take_of_le enough]
  exact stoul_lt read

theorem pos_iff_take {num : Nat} {msg : Frames} (enough : num ≤ msg.length) :
    decide (0 < num) = decide (msg.take num ≠ []) := by
  rw [decide_eq_decide, ne_eq, ← List.length_eq_zero_iff, List.length_take_of_le enough]
  omega

section Handlers

variable {X : Platform}

theorem hash_ne : ¬ bytes "HASH" = bytes "PEER" := by decide

theorem req_ne : ¬ bytes "REQ" = bytes "PEER" ∧ ¬ bytes "REQ" = bytes "HASH" := by decide

theorem doc_ne : ¬ bytes "DOC" = bytes "PEER" ∧ ¬ bytes "DOC" = bytes "HASH" ∧
    ¬ bytes "DOC" = bytes "REQ" := by decide

/-- **On frames that mean a message, `p2p_answer_p2p` does what it does on the message.** -/
theorem p2pAnswerP2p_parses {msg : Frames} {m : PeerMsg} (parses : Parses msg m) (p2pPort : Nat)
    (myHashes : List Bytes) (st : P2p) :
    Agree (fun r q => r.1 = q.1 ∧ List.Forall₂ DbReq.Carries r.2 q.2)
      (Wire.p2pAnswerP2p X p2pPort myHashes st msg) (p2pAnswerP2p X p2pPort myHashes st m) := by
  cases parses with
  | peer counted =>
      obtain ⟨num, read, enough, rfl⟩ := counted
      simp only [Wire.p2pAnswerP2p, next_cons, ok_bind, readSize_eq read, eachFrame_eq _ enough,
        if_true]
      exact (Agree.refl _).bind fun _ _ same => same ▸ Agree.ok ⟨rfl, .nil⟩
  | hash counted =>
      obtain ⟨num, read, enough, rfl⟩ := counted
      simp only [Wire.p2pAnswerP2p, next_cons, ok_bind, readSize_eq read, eachFrame_eq _ enough,
        if_true, if_neg hash_ne, foldlM_ok]
      exact .ok ⟨rfl, .nil⟩
  | req counted =>
      obtain ⟨num, read, enough, rfl⟩ := counted
      simp only [Wire.p2pAnswerP2p, next_cons, ok_bind, readSize_eq read, eachFrame_eq _ enough,
        if_true, if_neg req_ne.1, if_neg req_ne.2, foldlM_ok, foldl_append, List.nil_append,
        pos_iff_take enough]
      refine (Agree.refl _).bind fun _ _ _ => .ok ⟨rfl, .cons (.get ?_) .nil⟩
      rw [List.length_take_of_le enough, read]
  | @doc id size msg docs counted =>
      obtain ⟨num, read, enough, rfl⟩ := counted
      simp only [Wire.p2pAnswerP2p, next_cons, ok_bind, readSize_eq read, eachFrame_eq _ enough,
        if_true, if_neg doc_ne.1, if_neg doc_ne.2.1, if_neg doc_ne.2.2, foldlM_ok, foldl_unknown,
        List.nil_append, pos_iff_take enough]
      refine (Agree.refl _).bind fun _ _ _ => .ok ⟨rfl, .cons (.ins (stoul_stdToString ?_)) .nil⟩
      have shorter : (unknownDocs X myHashes (msg.take num)).length ≤ num :=
        (List.length_filter_le _ _).trans (List.length_take_le _ _)
      exact Nat.lt_of_le_of_lt shorter (stoul_lt read)

theorem getDocs_length_le {db : Database} {wanted docs : List Bytes}
    (got : getDocs X db wanted = .ok docs) : docs.length ≤ wanted.length := by
  induction wanted generalizing docs with
  | nil => cases got; exact Nat.le_refl _
  | cons h rest ih =>
      simp only [getDocs, bind_eq_ok] at got
      obtain ⟨⟨⟩, -, docs', later, shape⟩ := got
      cases shape
      have one : ∀ o : Option Bytes, o.toList.length ≤ 1 := fun o => by cases o <;> simp
      have bound := ih later
      have here := one (Option.map Piac.Theory.TermStore.Doc.data
        (Piac.Theory.TermStore.postings (hashTerm h) db).head?)
      simp only [List.length_append, List.length_cons]
      omega

theorem dbGetDocs_length_le {db : Database} {wanted docs : List Bytes}
    (got : dbGetDocs X db wanted = .ok docs) : docs.length ≤ wanted.length := by
  unfold dbGetDocs at got
  split at got
  · cases got; exact Nat.zero_le _
  · exact getDocs_length_le got

/-- On the frames of a request `db_peer_op` does what it does on the request. -/
theorem dbPeerOp_carries {msg : Frames} {req : DbReq} (carries : DbReq.Carries msg req)
    (s : Store) :
    Agree (fun r q => r.1 = q.1 ∧ List.Forall₂ DbRep.Carries r.2 q.2)
      (Wire.dbPeerOp X s msg) (dbPeerOp X s req) := by
  have ins : ¬ bytes "INS" = bytes "GET" := by decide
  cases carries with
  | @get addr size hashes read =>
      simp only [Wire.dbPeerOp, next_cons, ok_bind, readSize_eq read,
        eachFrame_eq _ (Nat.le_refl _), if_true, foldlM_ok, foldl_append, List.nil_append,
        List.take_length, pos_iff_take (Nat.le_refl _)]
      refine (Agree.refl _).bind fun _ _ _ => ?_
      cases got : dbGetDocs X s.db hashes with
      | error f => exact .error f
      | ok docs =>
          refine .ok ⟨rfl, .cons (.put (stoul_stdToString ?_)) .nil⟩
          exact Nat.lt_of_le_of_lt (dbGetDocs_length_le got) (stoul_lt read)
  | @ins size docs read =>
      simp only [Wire.dbPeerOp, next_cons, ok_bind, readSize_eq read,
        eachFrame_eq _ (Nat.le_refl _), if_true, if_neg ins, foldlM_ok, foldl_unknown,
        List.nil_append, List.take_length, pos_iff_take (Nat.le_refl _)]
      refine (Agree.refl _).bind fun _ _ _ => ?_
      by_cases nothing : unknownDocs X s.myHashes docs = []
      · simp only [if_pos nothing]
        exact .ok ⟨rfl, .nil⟩
      · simp only [if_neg nothing]
        exact (Agree.refl _).bind fun _ _ same => same ▸ Agree.ok ⟨rfl, .cons .new .nil⟩

/-- On the frames of a message of the db thread `p2p_answer_db` does what it does on the
message. -/
theorem p2pAnswerDb_carries {msg : Frames} {rep : DbRep} (carries : DbRep.Carries msg rep)
    (st : P2p) :
    Agree (fun r q => r.1 = q.1 ∧ List.Forall₂ (fun send send' => send.1 = send'.1 ∧
        ∀ id, Parses (id :: send.2) send'.2) r.2 q.2)
      (Wire.p2pAnswerDb X st msg) (p2pAnswerDb X st rep) := by
  cases carries with
  | @put addr size docs read =>
      simp only [Wire.p2pAnswerDb, next_cons, ok_bind, readSize_eq read,
        eachFrame_eq _ (Nat.le_refl _), if_true, foldlM_ok, foldl_append, List.nil_append,
        List.take_length, pos_iff_take (Nat.le_refl _)]
      refine (Agree.refl _).bind fun _ _ _ => ?_
      unfold sendAt
      split
      · exact .ok ⟨rfl, .cons ⟨rfl, fun id => .doc ⟨_, read, Nat.le_refl _, List.take_length⟩⟩ .nil⟩
      · exact .error _
  | new => exact .ok ⟨rfl, .nil⟩

end Handlers

end Piac
