/-
# Daemon.Turns — neither thread starves an input

The two loops with the sockets they poll (`Loops`). The p2p thread polls the ROUTER and the pair,
answers one message of each that was reported, and does not look again before its next poll; what
comes after a poll waits for the next one. The db thread takes a request of a client, if there is
one, and then one of the p2p thread. So the inputs of either thread are taken in turns
(`Theory.Turns`), however the threads are scheduled and whatever comes from outside.

* `Loops.refines`: a step is an event of `Daemon.Loop`, or none.
* `turns_taken`: while messages wait at the ROUTER, one note more at most is answered than messages
  are; a note behind `k` others waits for at most `k + 2` messages of peers; a request of the p2p
  thread behind `k` others waits for at most `k + 1` looks at the client socket; and while requests
  of clients wait, one request of the p2p thread more at most is handled than looks are taken.
-/
import Piac.Daemon.Threads
import Piac.Theory.Turns

namespace Piac

set_option autoImplicit false

open Piac.Theory.CppString Piac.Theory.Transition Piac.Theory.Turns

variable {X : Platform}

/-! ## The loops with their sockets -/

/-- What `poller.poll()` has reported and the loop has not seen to yet. -/
structure Report where
  router : Bool
  pair : Bool
  deriving DecidableEq

structure Loops (X : Platform) where
  threads : Threads
  /-- What waits at the ROUTER, in the order in which it is handed out. -/
  router : List PeerMsg
  /-- The same at the socket for clients; `none` is a request that sends no note. -/
  client : List (Option (ClientCmd X))
  report : Option Report

inductive LoopLabel (X : Platform) where
  /-- A message of a peer arrives; sockets are fair-queued, so it may get in front of others. -/
  | arrive (place : Nat) (msg : PeerMsg)
  | request (place : Nat) (cmd : Option (ClientCmd X))
  | poll
  | p2p (event : Event X)
  /-- The look at the client socket, and what is done for a request. -/
  | look
  | thread (l : ThreadLabel X)

/-- The steps of the two threads that neither poll nor receive but from the pair. -/
def ThreadLabel.inner : ThreadLabel X → Bool
  | .p2pPush | .dbPeerOp | .idle | .dbPush => true
  | .p2p _ | .client _ | .noClient => false

namespace Loops

/-- Whether the p2p thread comes to this call, and what it takes from its sockets. -/
def takes (s : Loops X) : Event X → Option (Loops X)
  | .bcastPeers | .bcastHashes | .sendDbRequests => if s.report = none then some s else none
  | .answerP2p msg =>
      match s.report, s.router with
      | some ⟨true, pair⟩, first :: rest =>
          if msg = first then some { s with router := rest, report := some ⟨false, pair⟩ } else none
      | _, _ => none
  | .answerDb => if s.report = some ⟨false, true⟩ then some { s with report := none } else none
  | .pass => if s.report = some ⟨false, false⟩ then some { s with report := none } else none
  | .dbPeerOp | .client _ => none

def step (p2pPort capacity : Nat) (s : Loops X) : LoopLabel X → Option (Loops X)
  | .arrive place msg =>
      some { s with router := s.router.take place ++ msg :: s.router.drop place }
  | .request place cmd =>
      some { s with client := s.client.take place ++ cmd :: s.client.drop place }
  | .poll =>
      if s.threads.daemon.fault = none ∧ s.threads.daemon.phase = .poll ∧ s.threads.p2pSend = [] ∧
          s.report = none ∧ (s.router ≠ [] ∨ s.threads.daemon.toP2p ≠ []) then
        some { s with report := some ⟨s.router ≠ [], s.threads.daemon.toP2p ≠ []⟩ }
      else none
  | .p2p event =>
      if s.threads.p2pSend = [] then
        (s.takes event).bind fun s' => (s.threads.daemon.act p2pPort event).map fun (d, _) =>
          { s' with threads := s.threads.holdP2p d }
      else none
  | .look =>
      match s.client with
      | [] => (s.threads.step p2pPort capacity (.noClient : ThreadLabel X)).map fun threads =>
          { s with threads }
      | none :: rest =>
          (s.threads.step p2pPort capacity (.noClient : ThreadLabel X)).map fun threads =>
            { s with threads, client := rest }
      | some cmd :: rest =>
          (s.threads.step p2pPort capacity (.client cmd)).map fun threads =>
            { s with threads, client := rest }
  | .thread l =>
      if l.inner then (s.threads.step p2pPort capacity l).map fun threads => { s with threads }
      else none

end Loops

namespace LoopLabel

/-- The p2p thread answers the db thread. -/
def answersDb : LoopLabel X → Bool
  | .p2p .answerDb => true
  | _ => false

/-- The p2p thread answers a peer. -/
def answersP2p : LoopLabel X → Bool
  | .p2p (.answerP2p _) => true
  | _ => false

/-- The db thread handles a request of the p2p thread. -/
def handlesPeer : LoopLabel X → Bool
  | .thread .dbPeerOp => true
  | _ => false

/-- The db thread looks at the client socket. -/
def looksAtClient : LoopLabel X → Bool
  | .look => true
  | _ => false

end LoopLabel

/-! ## Calls of the db thread -/

namespace Threads

variable {p2pPort capacity : Nat} {t u : Threads}

/-- A look at the client socket takes the db thread to its poll. -/
theorem client_step {cmd : ClientCmd X} (stepped : t.step p2pPort capacity (.client cmd) = some u) :
    t.dbPhase = .client ∧ u.dbPhase = .poll ∧ u.daemon.toDb = t.daemon.toDb ∧
      u.daemon.toP2p = t.daemon.toP2p := by
  obtain ⟨⟨-, here⟩, called⟩ := Option.ite_none_right_eq_some.mp stepped
  obtain ⟨⟨d, sends⟩, acted, rfl⟩ := Option.map_eq_some_iff.mp called
  exact ⟨here, rfl, (Daemon.act_client acted).1, rfl⟩

theorem noClient_step (stepped : t.step p2pPort capacity (.noClient : ThreadLabel X) = some u) :
    t.dbPhase = .client ∧ u.dbPhase = .poll ∧ u.daemon.toDb = t.daemon.toDb ∧
      u.daemon.toP2p = t.daemon.toP2p := by
  obtain ⟨⟨-, here⟩, shape⟩ := Option.ite_none_right_eq_some.mp stepped
  cases shape
  exact ⟨here, rfl, rfl, rfl⟩

/-- A request of the p2p thread takes it back. -/
theorem dbPeerOp_step (stepped : t.step p2pPort capacity (.dbPeerOp : ThreadLabel X) = some u) :
    t.dbPhase = .poll ∧ u.dbPhase = .client ∧ (∃ req, t.daemon.toDb = req :: u.daemon.toDb) ∧
      u.daemon.toP2p = t.daemon.toP2p := by
  obtain ⟨⟨-, here⟩, called⟩ := Option.ite_none_right_eq_some.mp stepped
  obtain ⟨⟨d, sends⟩, acted, rfl⟩ := Option.map_eq_some_iff.mp called
  exact ⟨here, rfl, (Daemon.act_dbPeerOp acted).1, rfl⟩

/-- So does a poll that reports none. -/
theorem idle_step (stepped : t.step p2pPort capacity (.idle : ThreadLabel X) = some u) :
    t.dbPhase = .poll ∧ t.daemon.toDb = [] ∧ u = { t with dbPhase := .client } := by
  obtain ⟨⟨-, here, empty⟩, shape⟩ := Option.ite_none_right_eq_some.mp stepped
  cases shape
  exact ⟨here, empty, rfl⟩

theorem p2pPush_step (stepped : t.step p2pPort capacity (.p2pPush : ThreadLabel X) = some u) :
    u.dbPhase = t.dbPhase ∧ (∃ req, u.daemon.toDb = t.daemon.toDb ++ [req]) ∧
      u.daemon.toP2p = t.daemon.toP2p := by
  cases pending : t.p2pSend with
  | nil => simp [Threads.step, pending] at stepped
  | cons req rest =>
      simp only [Threads.step, pending] at stepped
      obtain ⟨-, shape⟩ := Option.ite_none_right_eq_some.mp stepped
      cases shape
      exact ⟨rfl, ⟨req, rfl⟩, rfl⟩

theorem dbPush_step (stepped : t.step p2pPort capacity (.dbPush : ThreadLabel X) = some u) :
    u.dbPhase = t.dbPhase ∧ u.daemon.toDb = t.daemon.toDb ∧
      ∃ rep, u.daemon.toP2p = t.daemon.toP2p ++ [rep] := by
  cases pending : t.dbSend with
  | nil => simp [Threads.step, pending] at stepped
  | cons rep rest =>
      simp only [Threads.step, pending] at stepped
      obtain ⟨-, shape⟩ := Option.ite_none_right_eq_some.mp stepped
      cases shape
      exact ⟨rfl, rfl, rep, rfl⟩

end Threads

/-! ## Steps of the loops -/

namespace Loops

variable {p2pPort capacity : Nat} {s t : Loops X} {l : LoopLabel X}

theorem takes_cases {event : Event X} (taken : s.takes event = some t) :
    event.ofP2p = true ∧ t.threads = s.threads ∧ t.client = s.client ∧
      ((∃ msg pair, event = .answerP2p msg ∧ s.report = some ⟨true, pair⟩ ∧
          t.report = some ⟨false, pair⟩ ∧ s.router = msg :: t.router) ∨
        (event = .answerDb ∧ s.report = some ⟨false, true⟩ ∧ t.report = none ∧
          t.router = s.router) ∨
        ((∀ msg, event ≠ .answerP2p msg) ∧ event ≠ .answerDb ∧ t.router = s.router ∧
          (t.report = s.report ∨ s.report = some ⟨false, false⟩ ∧ t.report = none))) := by
  cases event with
  | bcastPeers | bcastHashes | sendDbRequests =>
      obtain ⟨-, shape⟩ := Option.ite_none_right_eq_some.mp taken
      cases shape
      exact ⟨rfl, rfl, rfl, .inr (.inr ⟨nofun, nofun, rfl, .inl rfl⟩)⟩
  | answerP2p msg =>
      simp only [takes] at taken
      split at taken
      · rename_i pair first rest report router
        obtain ⟨rfl, shape⟩ := Option.ite_none_right_eq_some.mp taken
        cases shape
        exact ⟨rfl, rfl, rfl, .inl ⟨msg, pair, rfl, report, rfl, router⟩⟩
      · cases taken
  | answerDb =>
      obtain ⟨report, shape⟩ := Option.ite_none_right_eq_some.mp taken
      cases shape
      exact ⟨rfl, rfl, rfl, .inr (.inl ⟨rfl, report, rfl, rfl⟩)⟩
  | pass =>
      obtain ⟨report, shape⟩ := Option.ite_none_right_eq_some.mp taken
      cases shape
      exact ⟨rfl, rfl, rfl, .inr (.inr ⟨nofun, nofun, rfl, .inr ⟨report, rfl⟩⟩)⟩
  | dbPeerOp | client cmd => cases taken

theorem step_p2p {event : Event X} (stepped : s.step p2pPort capacity (.p2p event) = some t) :
    s.threads.p2pSend = [] ∧ ∃ s' d sends, s.takes event = some s' ∧
      s.threads.daemon.act p2pPort event = some (d, sends) ∧
      t = { s' with threads := s.threads.holdP2p d } := by
  obtain ⟨free, called⟩ := Option.ite_none_right_eq_some.mp stepped
  obtain ⟨s', taken, called⟩ := Option.bind_eq_some_iff.mp called
  obtain ⟨⟨d, sends⟩, acted, rfl⟩ := Option.map_eq_some_iff.mp called
  exact ⟨free, s', d, sends, taken, acted, rfl⟩

/-- What is done for a client is a step of the threads. -/
theorem step_look (stepped : s.step p2pPort capacity .look = some t) :
    t.router = s.router ∧ t.report = s.report ∧ ∃ label : ThreadLabel X,
      (label = .noClient ∨ ∃ cmd, label = .client cmd) ∧
      s.threads.step p2pPort capacity label = some t.threads := by
  simp only [step] at stepped
  split at stepped
  all_goals
    obtain ⟨threads, called, rfl⟩ := Option.map_eq_some_iff.mp stepped
    refine ⟨rfl, rfl, _, ?_, called⟩
    simp

theorem step_thread {label : ThreadLabel X}
    (stepped : s.step p2pPort capacity (.thread label) = some t) :
    label.inner = true ∧ ∃ threads, s.threads.step p2pPort capacity label = some threads ∧
      t = { s with threads } := by
  obtain ⟨inner, mapped⟩ := Option.ite_none_right_eq_some.mp stepped
  obtain ⟨threads, called, rfl⟩ := Option.map_eq_some_iff.mp mapped
  exact ⟨inner, threads, called, rfl⟩

/-- **Each step of the loops is an event of the daemon, or nothing to it.** -/
theorem refines (stepped : s.step p2pPort capacity l = some t) :
    t.threads.sent = s.threads.sent ∨ ∃ (event : Event X) (sends : Sends),
      s.threads.sent.act p2pPort event = some (t.threads.sent, sends) := by
  cases l with
  | arrive place msg | request place cmd =>
      cases stepped
      exact .inl rfl
  | poll =>
      obtain ⟨-, shape⟩ := Option.ite_none_right_eq_some.mp stepped
      cases shape
      exact .inl rfl
  | p2p event =>
      obtain ⟨free, s', d, sends, taken, acted, rfl⟩ := step_p2p stepped
      exact .inr ⟨event, sends, Threads.sent_holdP2p free (takes_cases taken).1 acted⟩
  | look =>
      obtain ⟨-, -, label, -, called⟩ := step_look stepped
      exact Threads.refines called
  | thread label =>
      obtain ⟨-, threads, called, rfl⟩ := step_thread stepped
      exact Threads.refines called

/-! ## The p2p thread -/

/-- What a step is to the p2p thread: it answers a peer, whom its poll has reported, or the db
thread, if that was reported as well and no peer is left, or it comes nearer to its next poll. -/
theorem p2p_turn (stepped : s.step p2pPort capacity l = some t) :
    (l.answersP2p = true ∧ l.answersDb = false ∧
      t.threads.daemon.toP2p = s.threads.daemon.toP2p ∧
      ∃ pair, s.report = some ⟨true, pair⟩ ∧ t.report = some ⟨false, pair⟩) ∨
    (l.answersP2p = false ∧ l.answersDb = true ∧
      (∃ rep, s.threads.daemon.toP2p = rep :: t.threads.daemon.toP2p) ∧
      s.report = some ⟨false, true⟩ ∧ t.report = none) ∨
    (l.answersP2p = false ∧ l.answersDb = false ∧
      (∃ more, t.threads.daemon.toP2p = s.threads.daemon.toP2p ++ more) ∧
      (t.report = s.report ∨
        s.report = none ∧ t.report = some ⟨s.router ≠ [], s.threads.daemon.toP2p ≠ []⟩ ∨
        s.report = some ⟨false, false⟩ ∧ t.report = none)) := by
  have same {reps reps' : List DbRep} (kept : reps' = reps) : ∃ more, reps' = reps ++ more :=
    ⟨[], by rw [kept, List.append_nil]⟩
  cases l with
  | arrive place msg | request place cmd =>
      cases stepped
      exact .inr (.inr ⟨rfl, rfl, same rfl, .inl rfl⟩)
  | poll =>
      obtain ⟨⟨-, -, -, seen, -⟩, shape⟩ := Option.ite_none_right_eq_some.mp stepped
      cases shape
      exact .inr (.inr ⟨rfl, rfl, same rfl, .inr (.inl ⟨seen, rfl⟩)⟩)
  | p2p event =>
      obtain ⟨-, s', d, sends, taken, acted, rfl⟩ := step_p2p stepped
      obtain ⟨ofP2p, -, -, shape⟩ := takes_cases taken
      rcases Daemon.act_toP2p_eq ofP2p acted with ⟨rfl, first⟩ | ⟨other, kept⟩
      · rcases shape with ⟨_, _, shape, -⟩ | ⟨-, before, after, -⟩ | ⟨-, other, -⟩
        · cases shape
        · exact .inr (.inl ⟨rfl, rfl, first, before, after⟩)
        · exact absurd rfl other
      · rcases shape with ⟨msg, pair, rfl, before, after, -⟩ | ⟨rfl, -⟩ | ⟨noPeer, -, -, report⟩
        · exact .inl ⟨rfl, rfl, kept, pair, before, after⟩
        · exact absurd rfl other
        · refine .inr (.inr ⟨?_, ?_, same kept, report.imp_right .inr⟩)
          · cases event with
            | answerP2p msg => exact absurd rfl (noPeer msg)
            | _ => rfl
          · cases event with
            | answerDb => exact absurd rfl other
            | _ => rfl
  | look =>
      obtain ⟨-, report, label, rfl | ⟨cmd, rfl⟩, called⟩ := step_look stepped
      · obtain ⟨-, -, -, kept⟩ := Threads.noClient_step called
        exact .inr (.inr ⟨rfl, rfl, same kept, .inl report⟩)
      · obtain ⟨-, -, -, kept⟩ := Threads.client_step called
        exact .inr (.inr ⟨rfl, rfl, same kept, .inl report⟩)
  | thread label =>
      obtain ⟨inner, threads, called, rfl⟩ := step_thread stepped
      refine .inr (.inr ⟨rfl, rfl, ?_, .inl rfl⟩)
      cases label with
      | p2p event | client cmd | noClient => cases inner
      | p2pPush => exact same (Threads.p2pPush_step called).2.2
      | dbPush =>
          obtain ⟨-, -, rep, more⟩ := Threads.dbPush_step called
          exact ⟨[rep], more⟩
      | dbPeerOp => exact same (Threads.dbPeerOp_step called).2.2.2
      | idle =>
          obtain ⟨-, -, rfl⟩ := Threads.idle_step called
          exact same rfl

theorem served_db : Served (step (X := X) p2pPort capacity) (fun s => s.threads.daemon.toP2p)
    LoopLabel.answersDb := by
  constructor
  · intro s l t stepped answers
    rcases p2p_turn stepped with ⟨-, other, -⟩ | ⟨-, -, first, -⟩ | ⟨-, other, -⟩
    · exact absurd answers (by simp [other])
    · exact first
    · exact absurd answers (by simp [other])
  · intro s l t stepped other
    rcases p2p_turn stepped with ⟨-, -, kept, -⟩ | ⟨-, answers, -⟩ | ⟨-, -, more, -⟩
    · exact ⟨[], by rw [kept, List.append_nil]⟩
    · exact absurd answers (by simp [other])
    · exact more

/-- How many notes may still be answered in front of a message that waits at the ROUTER: one that
has been reported without it. -/
def notesDue (s : Loops X) : Nat := if s.report = some ⟨false, true⟩ then 1 else 0

/-- How many messages of peers may still be answered in front of a note that waits at the pair: one
that has been reported without it, and one that will be with it. -/
def peersDue (s : Loops X) : Nat :=
  match s.report with
  | some ⟨true, false⟩ => 2
  | some ⟨false, true⟩ => 0
  | _ => 1

/-- While messages of peers wait, notes are answered in turn with them. -/
theorem inTurns_router : InTurns (step (X := X) p2pPort capacity) (fun s => s.router ≠ [])
    LoopLabel.answersDb LoopLabel.answersP2p notesDue := by
  constructor
  · intro s l t stepped waits answers
    rcases p2p_turn stepped with ⟨-, other, -⟩ | ⟨-, -, -, before, after⟩ | ⟨-, other, -⟩
    · exact absurd answers (by simp [other])
    · simp [notesDue, before, after]
    · exact absurd answers (by simp [other])
  · intro s l t stepped waits answers
    unfold notesDue
    split <;> omega
  · intro s l t stepped waits noNote noPeer
    rcases p2p_turn stepped with ⟨answers, -⟩ | ⟨-, answers, -⟩ | ⟨-, -, -, report⟩
    · exact absurd answers (by simp [noPeer])
    · exact absurd answers (by simp [noNote])
    · rcases report with same | ⟨before, after⟩ | ⟨before, after⟩
      · simp [notesDue, same]
      · simp [notesDue, after, waits]
      · simp [notesDue, after]

/-- While notes wait, messages of peers are answered in turn with them. -/
theorem inTurns_pair : InTurns (step (X := X) p2pPort capacity)
    (fun s => s.threads.daemon.toP2p ≠ []) LoopLabel.answersP2p LoopLabel.answersDb peersDue := by
  constructor
  · intro s l t stepped waits answers
    rcases p2p_turn stepped with ⟨-, -, -, pair, before, after⟩ | ⟨other, -⟩ | ⟨other, -⟩
    · cases pair <;> simp [peersDue, before, after]
    · exact absurd answers (by simp [other])
    · exact absurd answers (by simp [other])
  · intro s l t stepped waits answers
    rcases p2p_turn stepped with ⟨-, other, -⟩ | ⟨-, -, -, before, after⟩ | ⟨-, other, -⟩
    · exact absurd answers (by simp [other])
    · simp [peersDue, before, after]
    · exact absurd answers (by simp [other])
  · intro s l t stepped waits noPeer noNote
    rcases p2p_turn stepped with ⟨answers, -⟩ | ⟨-, answers, -⟩ | ⟨-, -, -, report⟩
    · exact absurd answers (by simp [noPeer])
    · exact absurd answers (by simp [noNote])
    · rcases report with same | ⟨before, after⟩ | ⟨before, after⟩
      · simp [peersDue, same]
      · by_cases peers : s.router = [] <;> simp [peersDue, before, after, waits, peers]
      · simp [peersDue, before, after]

/-! ## The db thread -/

/-- Where the db thread stands in its loop: it looks at the client socket and comes to its poll,
which it leaves with a request handled, or when there is none. -/
theorem db_turn (stepped : s.step p2pPort capacity l = some t) :
    (l.looksAtClient = true ∧ l.handlesPeer = false ∧
      t.threads.daemon.toDb = s.threads.daemon.toDb ∧
      s.threads.dbPhase = .client ∧ t.threads.dbPhase = .poll) ∨
    (l.looksAtClient = false ∧ l.handlesPeer = true ∧
      (∃ req, s.threads.daemon.toDb = req :: t.threads.daemon.toDb) ∧
      s.threads.dbPhase = .poll ∧ t.threads.dbPhase = .client) ∨
    (l.looksAtClient = false ∧ l.handlesPeer = false ∧
      (∃ more, t.threads.daemon.toDb = s.threads.daemon.toDb ++ more) ∧
      (t.threads.dbPhase = s.threads.dbPhase ∨
        s.threads.dbPhase = .poll ∧ s.threads.daemon.toDb = [] ∧ t.threads.dbPhase = .client)) := by
  have same {reqs reqs' : List DbReq} (kept : reqs' = reqs) : ∃ more, reqs' = reqs ++ more :=
    ⟨[], by rw [kept, List.append_nil]⟩
  cases l with
  | arrive place msg | request place cmd =>
      cases stepped
      exact .inr (.inr ⟨rfl, rfl, same rfl, .inl rfl⟩)
  | poll =>
      obtain ⟨-, shape⟩ := Option.ite_none_right_eq_some.mp stepped
      cases shape
      exact .inr (.inr ⟨rfl, rfl, same rfl, .inl rfl⟩)
  | p2p event =>
      obtain ⟨-, s', d, sends, -, -, rfl⟩ := step_p2p stepped
      exact .inr (.inr ⟨rfl, rfl, same rfl, .inl rfl⟩)
  | look =>
      obtain ⟨-, -, label, rfl | ⟨cmd, rfl⟩, called⟩ := step_look stepped
      · obtain ⟨before, after, kept, -⟩ := Threads.noClient_step called
        exact .inl ⟨rfl, rfl, kept, before, after⟩
      · obtain ⟨before, after, kept, -⟩ := Threads.client_step called
        exact .inl ⟨rfl, rfl, kept, before, after⟩
  | thread label =>
      obtain ⟨inner, threads, called, rfl⟩ := step_thread stepped
      cases label with
      | p2p event | client cmd | noClient => cases inner
      | p2pPush =>
          obtain ⟨phase, ⟨req, more⟩, -⟩ := Threads.p2pPush_step called
          exact .inr (.inr ⟨rfl, rfl, ⟨[req], more⟩, .inl phase⟩)
      | dbPush =>
          obtain ⟨phase, kept, -⟩ := Threads.dbPush_step called
          exact .inr (.inr ⟨rfl, rfl, same kept, .inl phase⟩)
      | dbPeerOp =>
          obtain ⟨before, after, first, -⟩ := Threads.dbPeerOp_step called
          exact .inr (.inl ⟨rfl, rfl, first, before, after⟩)
      | idle =>
          obtain ⟨before, empty, rfl⟩ := Threads.idle_step called
          exact .inr (.inr ⟨rfl, rfl, same rfl, .inr ⟨before, empty, rfl⟩⟩)

theorem served_p2p : Served (step (X := X) p2pPort capacity) (fun s => s.threads.daemon.toDb)
    LoopLabel.handlesPeer := by
  constructor
  · intro s l t stepped handles
    rcases db_turn stepped with ⟨-, other, -⟩ | ⟨-, -, first, -⟩ | ⟨-, other, -⟩
    · exact absurd handles (by simp [other])
    · exact first
    · exact absurd handles (by simp [other])
  · intro s l t stepped other
    rcases db_turn stepped with ⟨-, -, kept, -⟩ | ⟨-, handles, -⟩ | ⟨-, -, more, -⟩
    · exact ⟨[], by rw [kept, List.append_nil]⟩
    · exact absurd handles (by simp [other])
    · exact more

/-- Looks at the client socket that may still be taken in front of a request that waits at the pair. -/
def looksDue (s : Loops X) : Nat := if s.threads.dbPhase = .client then 1 else 0

/-- Requests of the p2p thread that may still be handled in front of the next look. -/
def requestsDue (s : Loops X) : Nat := if s.threads.dbPhase = .poll then 1 else 0

theorem notesDue_le (s : Loops X) : s.notesDue ≤ 1 := by
  unfold notesDue
  split <;> decide

theorem peersDue_le (s : Loops X) : s.peersDue ≤ 2 := by
  unfold peersDue
  split <;> decide

theorem looksDue_le (s : Loops X) : s.looksDue ≤ 1 := by
  unfold looksDue
  split <;> decide

theorem requestsDue_le (s : Loops X) : s.requestsDue ≤ 1 := by
  unfold requestsDue
  split <;> decide

theorem inTurns_peer : InTurns (step (X := X) p2pPort capacity)
    (fun s => s.threads.daemon.toDb ≠ []) LoopLabel.looksAtClient LoopLabel.handlesPeer looksDue := by
  constructor <;> intro s l t stepped <;> have turn := db_turn stepped <;> unfold looksDue <;>
    grind -ring -linarith

theorem inTurns_client : InTurns (step (X := X) p2pPort capacity) (fun _ => True)
    LoopLabel.handlesPeer LoopLabel.looksAtClient requestsDue := by
  constructor <;> intro s l t stepped <;> have turn := db_turn stepped <;> unfold requestsDue <;>
    grind -ring -linarith

end Loops

/-- **Neither thread starves an input**, however the threads are scheduled, and whatever peers
and clients send. While messages of peers wait at the ROUTER, at most one note more is answered than
messages of peers are. A message of the db thread at place `k` of the pair stays in it until it is
answered, and before that at most `k + 2` messages of peers are. A request of the p2p thread at
place `k` stays until it is handled, and before that the db thread looks at the client socket at
most `k + 1` times; and it handles at most one request more than it takes such looks. -/
theorem turns_taken {p2pPort capacity : Nat} {s t : Loops X} {ls : List (LoopLabel X)}
    (run : Run (Loops.step p2pPort capacity) (fun _ _ => True) s ls t) :
    (Run (Loops.step p2pPort capacity) (fun s _ => s.router ≠ []) s ls t →
      ls.countP LoopLabel.answersDb ≤ ls.countP LoopLabel.answersP2p + 1) ∧
    (∀ k rep, s.threads.daemon.toP2p[k]? = some rep → ls.countP LoopLabel.answersDb ≤ k →
      t.threads.daemon.toP2p[k - ls.countP LoopLabel.answersDb]? = some rep ∧
        ls.countP LoopLabel.answersP2p ≤ k + 2) ∧
    (∀ k req, s.threads.daemon.toDb[k]? = some req → ls.countP LoopLabel.handlesPeer ≤ k →
      t.threads.daemon.toDb[k - ls.countP LoopLabel.handlesPeer]? = some req ∧
        ls.countP LoopLabel.looksAtClient ≤ k + 1) ∧
    ls.countP LoopLabel.handlesPeer ≤ ls.countP LoopLabel.looksAtClient + 1 := by
  refine ⟨fun waiting => ?_, fun k rep here before => ?_, fun k req here before => ?_, ?_⟩
  · have turns := Loops.inTurns_router.count_le waiting
    have due := s.notesDue_le
    omega
  · obtain ⟨place, few⟩ := overtaken_le Loops.served_db Loops.inTurns_pair run here before
    have due := s.peersDue_le
    exact ⟨place, by omega⟩
  · obtain ⟨place, few⟩ := overtaken_le Loops.served_p2p Loops.inTurns_peer run here before
    have due := s.looksDue_le
    exact ⟨place, by omega⟩
  · have turns := Loops.inTurns_client.count_le (run.weaken fun _ _ _ => trivial)
    have due := s.requestsDue_le
    omega

/-- A note that comes after the poll waits for the message that was reported, and for one more. -/
theorem turns_taken_note : ∃ s t : Loops (reference true), ∃ ls,
    Run (Loops.step 65090 1) (fun _ _ => True) s ls t ∧
      s.threads.daemon.toP2p[0]? = some .new ∧ ls.countP LoopLabel.answersDb = 0 ∧
      ls.countP LoopLabel.answersP2p = 2 ∧ t.threads.daemon.toP2p[0]? = some .new := by
  let d : Daemon := { Daemon.start (reference true) [] [] with phase := .poll, toP2p := [.new] }
  let s : Loops (reference true) := ⟨.start d, [.peer [], .peer []], [], some ⟨true, false⟩⟩
  let ls : List (LoopLabel (reference true)) :=
    [.p2p (.answerP2p (.peer [])), .p2p .pass, .p2p .bcastPeers, .p2p .bcastHashes,
      .p2p .sendDbRequests, .poll, .p2p (.answerP2p (.peer []))]
  have run : Run (Loops.step 65090 1) (fun _ _ => True) s ls _ :=
    .computed (by decide +kernel) fun _ _ _ => trivial
  exact ⟨_, _, ls, run, rfl, rfl, rfl, ((turns_taken run).2.1 0 .new rfl (Nat.le_refl 0)).1⟩

end Piac
