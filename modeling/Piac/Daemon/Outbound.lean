/-
# Daemon.Outbound — bounded queues to the peers

Each peer has a socket with a queue of its own that holds `hwm` messages, and a send
to a full one waits. The functions of the p2p thread send to one peer after the
other, so the rest of what a call sends, and every later call, waits with it
(`Theory.Backpressure`). A queue is emptied by the peer, unless nobody listens there
any more (`dead`).

* `call_completes_iff`: a call of the p2p thread gets its messages out exactly if the
  queue of every dead peer has room for what the call sends there.
* `not_silenced`: so they do in every run in which each call starts with that room.
* `silenced`: whatever the bound, one dead peer and enough ads leave the p2p thread
  waiting, and then it does nothing any more (`Overdue.forever`).
-/
import Piac.Daemon.Loop
import Piac.Daemon.Reference
import Piac.Theory.Backpressure

namespace Piac

set_option autoImplicit false

open Piac.Theory.CppString Piac.Theory.Transition Piac.Theory.Backpressure

/-- A daemon, the queues to its peers, and what the last call of the p2p thread has still to
send. -/
structure Outbound where
  daemon : Daemon
  out : Queues Bytes PeerMsg

inductive OutboundLabel (X : Platform) where
  | event (event : Event X)
  /-- A send of the p2p thread, or a peer that takes a message. -/
  | transport (m : Move Bytes)

variable {X : Platform}

namespace Outbound

section Step

variable (p2pPort hwm : Nat) (dead : Bytes → Bool)

def step (t : Outbound) : OutboundLabel X → Option Outbound
  | .event event =>
      if event.ofP2p = true → t.out.pending = [] then
        (t.daemon.act p2pPort event).map fun (daemon, sends) => ⟨daemon, t.out.push sends⟩
      else none
  | .transport m =>
      if t.daemon.fault = none then (move hwm dead t.out m).map fun out => { t with out } else none

variable (X) in
/-- The call gets all its messages out. -/
def Completes (t : Outbound) : Prop :=
  ∃ (ms : List (Move Bytes)) (t' : Outbound),
    exec (step p2pPort hwm dead) t (ms.map (.transport : Move Bytes → OutboundLabel X)) = some t' ∧
      t'.out.pending = []

end Step

variable {p2pPort hwm : Nat} {dead : Bytes → Bool} {t t' : Outbound}

theorem transport_cases {m : Move Bytes}
    (stepped : t.step p2pPort hwm dead (.transport m : OutboundLabel X) = some t') :
    t.daemon.fault = none ∧ move hwm dead t.out m = some t'.out ∧ t'.daemon = t.daemon := by
  obtain ⟨running, stepped⟩ := Option.ite_none_right_eq_some.mp stepped
  obtain ⟨out, moved, rfl⟩ := Option.map_eq_some_iff.mp stepped
  exact ⟨running, moved, rfl⟩

theorem exec_transport (running : t.daemon.fault = none) (ms : List (Move Bytes)) :
    exec (step p2pPort hwm dead) t (ms.map (.transport : Move Bytes → OutboundLabel X)) =
      (exec (move hwm dead) t.out ms).map fun out => { t with out } := by
  induction ms generalizing t with
  | nil => rfl
  | cons m ms ih =>
      simp only [List.map_cons, exec, step, if_pos running]
      cases moved : move hwm dead t.out m with
      | none => rfl
      | some out => exact @ih { t with out } running

/-- **A call gets its messages out exactly if the queues of the dead have room for theirs.** -/
theorem completes_iff (pos : 1 ≤ hwm) (within : t.out.Within hwm)
    (running : t.daemon.fault = none) :
    Completes X p2pPort hwm dead t ↔ ¬ t.out.Overdue hwm dead := by
  rw [← empties_iff pos within]
  simp only [Completes, Empties, exec_transport running, Option.map_eq_some_iff]
  constructor
  · rintro ⟨ms, _, ⟨out, moved, rfl⟩, done⟩
    exact ⟨ms, out, moved, done⟩
  · rintro ⟨ms, out, moved, done⟩
    exact ⟨ms, { t with out }, ⟨out, moved, rfl⟩, done⟩

end Outbound

/-! ## What a call sends -/

/-- The number of messages that a call of the p2p thread sends to a peer, as the daemon stands
before it. -/
def Daemon.sendsTo (d : Daemon) (addr : Bytes) : Event X → Nat
  | .bcastPeers => if d.p2p.toBcastPeers then d.p2p.myPeers.count addr else 0
  | .bcastHashes => if d.p2p.toBcastHashes then d.p2p.myPeers.count addr else 0
  | .sendDbRequests =>
      if d.p2p.toSendDbRequests then (d.p2p.dbRequests.map Prod.fst).count addr else 0
  | .answerDb =>
      match d.toP2p with
      | .put addr' _ :: _ => if addr' = addr then 1 else 0
      | _ => 0
  | _ => 0

theorem sendAt_eq_ok {st : P2p} {addr : Bytes} {msg : PeerMsg} {send : Bytes × PeerMsg}
    (sent : sendAt st addr msg = .ok send) : send = (addr, msg) := by
  unfold sendAt at sent
  split at sent <;> cases sent
  rfl

theorem mapM_sendAt_fst {st : P2p} {msg : Bytes × List Bytes → PeerMsg}
    {requests : List (Bytes × List Bytes)} {sends : Sends}
    (sent : requests.mapM (fun r => sendAt st r.1 (msg r)) = .ok sends) :
    sends.map Prod.fst = requests.map Prod.fst := by
  induction requests generalizing sends with
  | nil =>
      cases sent
      rfl
  | cons r rest ih =>
      simp only [List.mapM_cons, bind_eq_ok, pure_eq_ok] at sent
      obtain ⟨send, first, sends', later, rfl⟩ := sent
      rw [sendAt_eq_ok first, List.map_cons, List.map_cons, ih later]

/-- It sends as many as that, or ends the process. -/
theorem Daemon.act_sendsTo {p2pPort : Nat} {d d' : Daemon} {event : Event X} {sends : Sends}
    (acted : d.act p2pPort event = some (d', sends)) (running : d'.fault = none) (addr : Bytes) :
    (sends.map Prod.fst).count addr = d.sendsTo addr event := by
  obtain ⟨-, acted⟩ := Option.ite_none_right_eq_some.mp acted
  have broadcast : ∀ msg : PeerMsg,
      (d.p2p.myPeers.map fun addr => (addr, msg)).map Prod.fst = d.p2p.myPeers := by
    intro msg
    rw [List.map_map]
    exact List.map_id _
  cases event with
  | bcastPeers =>
      simp only [actRunning, Option.ite_none_right_eq_some] at acted
      obtain ⟨-, shape⟩ := acted
      unfold p2pBcastPeers at shape
      split at shape <;> cases shape
      · rename_i flag
        rw [broadcast, sendsTo, if_pos flag]
      · rename_i unset
        rw [sendsTo, if_neg unset]
        rfl
  | bcastHashes =>
      simp only [actRunning, Option.ite_none_right_eq_some] at acted
      obtain ⟨-, shape⟩ := acted
      unfold p2pBcastHashes at shape
      split at shape <;> cases shape
      · rename_i flag
        rw [broadcast, sendsTo, if_pos flag]
      · rename_i unset
        rw [sendsTo, if_neg unset]
        rfl
  | sendDbRequests =>
      simp only [actRunning, Option.ite_none_right_eq_some] at acted
      obtain ⟨-, shape⟩ := acted
      unfold p2pSendDbRequests at shape
      split at shape
      · rename_i flag
        cases sent : d.p2p.dbRequests.mapM fun request =>
            sendAt d.p2p request.1 (PeerMsg.req (localhost p2pPort) request.2) with
        | error f =>
            simp only [sent] at shape
            cases shape
            cases running
        | ok sends' =>
            simp only [sent] at shape
            cases shape
            rw [mapM_sendAt_fst sent, sendsTo, if_pos flag]
      · rename_i unset
        cases shape
        rw [sendsTo, if_neg unset]
        rfl
  | answerP2p msg =>
      obtain ⟨-, shape⟩ := Option.ite_none_right_eq_some.mp acted
      cases done : p2pAnswerP2p X p2pPort d.store.myHashes d.p2p msg with
      | error f =>
          simp only [done] at shape
          cases shape
          rfl
      | ok result =>
          simp only [done] at shape
          cases shape
          rfl
  | answerDb =>
      obtain ⟨-, shape⟩ := Option.ite_none_right_eq_some.mp acted
      cases queue : d.toP2p with
      | nil =>
          rw [queue] at shape
          cases shape
      | cons rep rest =>
          simp only [queue] at shape
          cases rep with
          | new =>
              cases shape
              simp [sendsTo, queue]
          | put addr' docs =>
              cases done : p2pAnswerDb X d.p2p (.put addr' docs) with
              | error f =>
                  simp only [settle, done] at shape
                  cases shape
                  cases running
              | ok result =>
                  simp only [settle, done] at shape
                  cases shape
                  simp only [p2pAnswerDb, bind_eq_ok, pure_eq_ok] at done
                  obtain ⟨-, -, send, sent, same⟩ := done
                  rw [← same, sendAt_eq_ok sent]
                  by_cases here : addr' = addr <;> simp [sendsTo, queue, here]
  | pass =>
      obtain ⟨-, shape⟩ := Option.ite_none_right_eq_some.mp acted
      cases shape
      rfl
  | dbPeerOp =>
      simp only [actRunning] at acted
      split at acted
      · cases acted
      rename_i req rest _
      cases done : Piac.dbPeerOp X d.store req <;>
        (simp only [settle, done] at acted; cases acted; rfl)
  | client cmd =>
      simp only [actRunning] at acted
      cases done : clientOp X d.store cmd <;>
        (simp only [settle, done] at acted; cases acted; rfl)

namespace Outbound

variable {p2pPort hwm : Nat} {dead : Bytes → Bool} {t₀ t t' : Outbound}

theorem event_cases {event : Event X}
    (stepped : t.step p2pPort hwm dead (.event event) = some t') :
    (event.ofP2p = true → t.out.pending = []) ∧ t.daemon.fault = none ∧
      ∃ sends, t.daemon.act p2pPort event = some (t'.daemon, sends) ∧ t'.out = t.out.push sends := by
  obtain ⟨idle, stepped⟩ := Option.ite_none_right_eq_some.mp stepped
  obtain ⟨⟨d, sends⟩, acted, rfl⟩ := Option.map_eq_some_iff.mp stepped
  obtain ⟨running, -⟩ := Option.ite_none_right_eq_some.mp acted
  exact ⟨idle, running, sends, acted, rfl⟩

theorem within_event {event : Event X} (within : t.out.Within hwm)
    (stepped : t.step p2pPort hwm dead (.event event) = some t') : t'.out.Within hwm := by
  obtain ⟨-, -, sends, -, out⟩ := event_cases stepped
  rw [out]
  exact within.push sends

/-- A call adds what it sends to what the peers are owed. -/
theorem owed_event {event : Event X}
    (stepped : t.step p2pPort hwm dead (.event event) = some t') (running : t'.daemon.fault = none)
    (addr : Bytes) : t'.out.owed addr = t.out.owed addr + t.daemon.sendsTo addr event := by
  obtain ⟨-, -, sends, acted, out⟩ := event_cases stepped
  rw [out, Queues.owed_push, ← Daemon.act_sendsTo acted running addr]
  -- the two counts compare addresses by different instances
  congr!

/-! ## Calls that start with room -/

/-- A call starts with room in the queue of each dead peer for what it sends to that peer. -/
def Roomy (hwm : Nat) (dead : Bytes → Bool) (t : Outbound) : OutboundLabel X → Prop
  | .event event => ∀ addr, dead addr = true → t.out.load addr + t.daemon.sendsTo addr event ≤ hwm
  | .transport _ => True

/-- The db thread sends to no peer. -/
theorem sendsTo_ofDb {d : Daemon} {addr : Bytes} {event : Event X} (ofDb : event.ofP2p = false) :
    d.sendsTo addr event = 0 := by
  cases event <;> first | rfl | cases ofDb

/-- **A call of the p2p thread gets its messages out exactly if it starts with room for them.** -/
theorem call_completes_iff {event : Event X} (pos : 1 ≤ hwm) (ofP2p : event.ofP2p = true)
    (within : t.out.Within hwm) (stepped : t.step p2pPort hwm dead (.event event) = some t')
    (running : t'.daemon.fault = none) :
    Completes X p2pPort hwm dead t' ↔ Roomy hwm dead t (.event event) := by
  obtain ⟨idle, -⟩ := event_cases stepped
  rw [completes_iff pos (within_event within stepped) running]
  constructor
  · intro due addr isDead
    by_contra beyond
    refine due ⟨addr, isDead, ?_⟩
    rw [owed_event stepped running, Queues.owed_of_done (idle ofP2p)]
    omega
  · rintro roomy ⟨addr, isDead, beyond⟩
    have room := roomy addr isDead
    rw [owed_event stepped running, Queues.owed_of_done (idle ofP2p)] at beyond
    omega

theorem Roomy.step {l : OutboundLabel X} (roomy : Roomy hwm dead t l) (within : t.out.Within hwm)
    (due : t.daemon.fault = none → ¬ t.out.Overdue hwm dead)
    (stepped : t.step p2pPort hwm dead l = some t') :
    t'.out.Within hwm ∧ (t'.daemon.fault = none → ¬ t'.out.Overdue hwm dead) := by
  cases l with
  | event event =>
      obtain ⟨idle, running, -⟩ := event_cases stepped
      refine ⟨within_event within stepped, ?_⟩
      rintro running' ⟨addr, isDead, beyond⟩
      rw [owed_event stepped running'] at beyond
      cases ofP2p : event.ofP2p with
      | true =>
          have room : t.out.load addr + t.daemon.sendsTo addr event ≤ hwm := roomy addr isDead
          rw [Queues.owed_of_done (idle ofP2p)] at beyond
          omega
      | false =>
          rw [sendsTo_ofDb ofP2p] at beyond
          exact due running ⟨addr, isDead, beyond⟩
  | transport m =>
      obtain ⟨running, moved, -⟩ := transport_cases stepped
      refine ⟨(move_keeps within moved).1, fun _ => ?_⟩
      rw [overdue_move within moved]
      exact due running

/-- **Dead peers do not silence a daemon** in any run in which each call of the p2p thread starts
with room for what it sends to them. -/
theorem not_silenced {ls : List (OutboundLabel X)} (pos : 1 ≤ hwm) (idle : t₀.out.pending = [])
    (within : t₀.out.Within hwm) (run : Run (step p2pPort hwm dead) (Roomy hwm dead) t₀ ls t)
    (running : t.daemon.fault = none) : Completes X p2pPort hwm dead t := by
  obtain ⟨within', due⟩ :=
    @Run.invariant _ _ _ _
      (fun u => u.out.Within hwm ∧ (u.daemon.fault = none → ¬ u.out.Overdue hwm dead)) _ _ _ run
      ⟨within, fun _ => Queues.not_overdue_of_done within idle⟩
      fun u l u' kept roomy stepped => Roomy.step roomy kept.1 kept.2 stepped
  exact (completes_iff pos within' running).mpr (due running)

/-! ## Calls that do not -/

/-- **Once more is owed to a dead peer than its queue can hold, the p2p thread makes no call any
more**, and never gets out what it has to send. -/
theorem Overdue.forever {ls : List (OutboundLabel X)} (overdue : t.out.Overdue hwm dead)
    (within : t.out.Within hwm) (run : Run (step p2pPort hwm dead) (fun _ _ => True) t ls t') :
    t'.out.pending ≠ [] ∧ ∀ event, .event event ∈ ls → event.ofP2p = false := by
  have kept : t'.out.Within hwm ∧ t'.out.Overdue hwm dead ∧
      ∀ event, .event event ∈ ls → event.ofP2p = false := by
    refine @Run.history _ _ _ _ (fun ls u => u.out.Within hwm ∧ u.out.Overdue hwm dead ∧
      ∀ event : Event X, .event event ∈ ls → event.ofP2p = false) _ _ _ run
      ⟨within, overdue, fun _ none_ => absurd none_ List.not_mem_nil⟩ ?_
    rintro ls u l u' ⟨within, overdue, ofDb⟩ - stepped
    cases l with
    | event event =>
        obtain ⟨idle, -, sends, -, out⟩ := event_cases stepped
        refine ⟨within_event within stepped, ?_, fun event' member => ?_⟩
        · obtain ⟨addr, isDead, beyond⟩ := overdue
          refine ⟨addr, isDead, ?_⟩
          rw [out, Queues.owed_push]
          omega
        · rcases List.mem_append.mp member with before | last
          · exact ofDb event' before
          · cases List.mem_singleton.mp last
            by_contra ofP2p
            exact overdue.pending within (idle (by simpa using ofP2p))
    | transport m =>
        obtain ⟨-, moved, -⟩ := transport_cases stepped
        exact ⟨(move_keeps within moved).1, (overdue_move within moved).mpr overdue,
          by simpa using ofDb⟩
  exact ⟨kept.2.1.pending kept.1, kept.2.2⟩

/-! ## A daemon that is silenced -/

/-- The peer that leaves, and one that stays. -/
def gone : Bytes := localhost 65090

def live : Bytes := localhost 65092

def left (addr : Bytes) : Bool := addr == gone

/-- A daemon at rest that knows both, with `n` messages to the one that has left. -/
def atRest (n : Nat) : Outbound :=
  ⟨⟨⟨[gone, live], [], false, false, false⟩, .poll, ⟨[], []⟩, [], [], none⟩,
    ⟨Function.update (fun _ => 0) gone n, []⟩⟩

/-- The daemon before its first broadcast. -/
def fresh : Outbound := ⟨.start (reference true) [gone, live] [], ⟨fun _ => 0, []⟩⟩

/-- A client's request that stores nothing: its note is sent all the same. -/
def blankAdd : ClientCmd (reference true) := .add [65] []

theorem clientOp_blankAdd : clientOp (reference true) ⟨[], []⟩ blankAdd = .ok (⟨[], []⟩, [.new]) :=
  rfl

abbrev leftStep (hwm : Nat) (t : Outbound) (l : OutboundLabel (reference true)) : Option Outbound :=
  t.step 65091 hwm left l

/-- It applies to the first broadcast of a daemon, one of whose peers nobody listens at. -/
theorem not_silenced_start : ∃ t : Outbound, leftStep 1 fresh (.event .bcastPeers) = some t ∧
    t.out.pending ≠ [] ∧ Completes (reference true) 65091 1 left t := by
  let peer : PeerMsg := .peer [localhost 65091, gone, live]
  let d : Daemon := { Daemon.start (reference true) [gone, live] [] with
    p2p := ⟨[gone, live], [], false, true, false⟩, phase := .bcastHashes }
  have stepped : leftStep 1 fresh (.event .bcastPeers) =
      some ⟨d, ⟨fun _ => 0, [(gone, peer), (live, peer)]⟩⟩ := rfl
  have roomy : Roomy 1 left fresh (.event .bcastPeers : OutboundLabel (reference true)) := by
    intro addr isDead
    obtain rfl : addr = gone := by simpa [left] using isDead
    decide
  exact ⟨_, stepped, List.cons_ne_nil _ _,
    not_silenced (Nat.le_refl 1) rfl (fun _ => Nat.zero_le 1) (.snoc .nil roomy stepped) rfl⟩

/-- An add, and the p2p thread up to its broadcast of the hashes. -/
def addRound : List (OutboundLabel (reference true)) :=
  [.event (.client blankAdd), .event .answerDb, .event .bcastPeers, .event .bcastHashes]

/-- The broadcast is sent, and the peer that stays takes its message. -/
def sendRound : List (OutboundLabel (reference true)) :=
  [.transport .send, .transport .send, .transport (.drain live), .event .sendDbRequests]

theorem live_ne_gone : live ≠ gone := by decide

/-- Each add puts one more message into the queue of the peer that has left. -/
theorem atRest_add {hwm n : Nat} (less : n < hwm) :
    exec (leftStep hwm) (atRest n) (addRound ++ sendRound) = some (atRest (n + 1)) := by
  have pos : 0 < hwm := by omega
  simp [exec, step, move, Queues.push, atRest, addRound, sendRound, Event.ofP2p, Daemon.act,
    Daemon.actRunning, clientOp_blankAdd, Daemon.settle, p2pAnswerDb, p2pBcastPeers,
    p2pBcastHashes, p2pSendDbRequests, less, pos, left, live_ne_gone]

/-- While both take their messages, the daemon comes to rest. -/
theorem fresh_atRest {hwm : Nat} (pos : 1 ≤ hwm) : ∃ ls : List (OutboundLabel (reference true)),
    exec (step 65091 hwm fun _ => false) fresh ls = some (atRest 0) := by
  let both : List (OutboundLabel (reference true)) := [.transport .send, .transport (.drain gone),
    .transport .send, .transport (.drain live)]
  refine ⟨[.event .bcastPeers] ++ both ++ [.event .bcastHashes] ++ both ++
    [.event .sendDbRequests], ?_⟩
  have less : 0 < hwm := pos
  have store : dbUpdateHashes (reference true) ⟨[], []⟩ = ⟨[], []⟩ := rfl
  simp [exec, step, move, Queues.push, both, atRest, fresh, Daemon.start, P2p.start, store,
    Event.ofP2p, Daemon.act, Daemon.actRunning, Daemon.settle, p2pBcastPeers, p2pBcastHashes,
    p2pSendDbRequests, less]

theorem atRest_full {hwm : Nat} (n : Nat) (fits : n ≤ hwm) :
    ∃ ls, exec (leftStep hwm) (atRest 0) ls = some (atRest n) := by
  induction n with
  | zero => exact ⟨[], rfl⟩
  | succ n ih =>
      obtain ⟨ls, before⟩ := ih (by omega)
      refine ⟨ls ++ (addRound ++ sendRound), ?_⟩
      rw [exec_append, before]
      exact atRest_add fits

/-- **Whatever the high-water mark, one peer that has left and enough adds silence a daemon.** -/
theorem silenced (hwm : Nat) (pos : 1 ≤ hwm) :
    ∃ (ls ms : List (OutboundLabel (reference true))) (t : Outbound),
      Run (step 65091 hwm fun _ => false) (fun _ _ => True) fresh ls (atRest 0) ∧
      Run (step 65091 hwm left) (fun _ _ => True) (atRest 0) ms t ∧
      t.daemon.fault = none ∧ ¬ Completes (reference true) 65091 hwm left t := by
  obtain ⟨ls, begins⟩ := fresh_atRest pos
  obtain ⟨ms, full⟩ := atRest_full hwm (Nat.le_refl hwm)
  let hash : PeerMsg := .hash (localhost 65091) []
  let stuck : Outbound := ⟨⟨⟨[gone, live], [], false, false, false⟩, .sendDbRequests, ⟨[], []⟩, [],
    [], none⟩, ⟨Function.update (fun _ => 0) gone hwm, [(gone, hash), (live, hash)]⟩⟩
  have ends : exec (leftStep hwm) (atRest hwm) addRound = some stuck := by
    simp [exec, step, Queues.push, atRest, addRound, stuck, hash, Event.ofP2p, Daemon.act,
      Daemon.actRunning, clientOp_blankAdd, Daemon.settle, p2pAnswerDb, p2pBcastPeers,
      p2pBcastHashes]
  have whole : exec (leftStep hwm) (atRest 0) (ms ++ addRound) = some stuck := by
    rw [exec_append, full]
    exact ends
  have within : stuck.out.Within hwm := within_update (fun _ => Nat.zero_le hwm) (Nat.le_refl hwm)
  refine ⟨ls, _, stuck, .of_exec begins fun _ _ _ => trivial, .of_exec whole fun _ _ _ => trivial,
    rfl, ?_⟩
  rw [completes_iff pos within rfl, not_not]
  exact ⟨gone, by decide, by simp [Queues.owed, stuck]⟩

/-- The default high-water mark is not enough. -/
theorem silenced_default : ∃ (ls ms : List (OutboundLabel (reference true))) (t : Outbound),
    Run (step 65091 1000 fun _ => false) (fun _ _ => True) fresh ls (atRest 0) ∧
    Run (step 65091 1000 left) (fun _ _ => True) (atRest 0) ms t ∧
    t.daemon.fault = none ∧ ¬ Completes (reference true) 65091 1000 left t :=
  silenced 1000 (by decide)

end Outbound

end Piac
