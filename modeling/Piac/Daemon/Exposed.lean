/-
# Daemon.Exposed — one daemon whose peers send what they like

The daemon of `Daemon.Loop` with the frames of its messages: what arrives at the
router is any list of frames, and the inproc pair holds the frames that the
handlers of `Daemon.Wire` write. What it sends to peers is not looked at here.

`Simulates` relates it to the daemon whose messages have been read. As long as
every list of frames that is answered means a message or is an unknown command,
each step is one of that daemon (`Simulates.step`), with the same fault if there
is one.
-/
import Piac.Daemon.Loop
import Piac.Daemon.Wire
import Mathlib.Data.List.Forall2

namespace Piac

set_option autoImplicit false

open Piac.Theory.CppString

structure Exposed where
  p2p : P2p
  phase : Phase
  store : Store
  /-- The inproc pair, p2p thread to db thread. -/
  toDb : List Frames
  /-- The inproc pair, db thread to p2p thread. -/
  toP2p : List Frames
  fault : Option Fault
  deriving DecidableEq

/-- One call of a handler in one of the threads. -/
inductive Input (X : Platform) where
  | bcastPeers
  | bcastHashes
  | sendDbRequests
  | answerP2p (msg : Frames)
  | answerDb
  | pass
  | dbPeerOp
  | client (cmd : ClientCmd X)

namespace Exposed

def start (X : Platform) (peers : List Bytes) (db : Database) : Exposed :=
  { p2p := .start peers, phase := .bcastPeers, store := dbUpdateHashes X ⟨db, []⟩,
    toDb := [], toP2p := [], fault := none }

def settle {α : Type} (e : Exposed) (result : Except Fault α) (after : α → Exposed) : Exposed :=
  match result with
  | .ok a => after a
  | .error f => { e with fault := some f }

variable (X : Platform)

/-- What an input does to a running daemon; `none` if it is not enabled. -/
def stepRunning (p2pPort : Nat) (e : Exposed) : Input X → Option Exposed
  | .bcastPeers =>
      if e.phase = .bcastPeers then
        some { e with p2p := (p2pBcastPeers p2pPort e.p2p).1, phase := .bcastHashes }
      else none
  | .bcastHashes =>
      if e.phase = .bcastHashes then
        some { e with p2p := (p2pBcastHashes p2pPort e.store.myHashes e.p2p).1
                      phase := .sendDbRequests }
      else none
  | .sendDbRequests =>
      if e.phase = .sendDbRequests then
        some (e.settle (p2pSendDbRequests p2pPort e.p2p) fun (p2p, _) =>
          { e with p2p, phase := .poll })
      else none
  | .answerP2p msg =>
      if e.phase = .poll then
        some (e.settle (Wire.p2pAnswerP2p X p2pPort e.store.myHashes e.p2p msg) fun (p2p, reqs) =>
          { e with p2p, phase := .answered, toDb := e.toDb ++ reqs })
      else none
  | .answerDb =>
      if e.phase = .poll ∨ e.phase = .answered then
        match e.toP2p with
        | [] => none
        | rep :: rest =>
            let e := { e with toP2p := rest }
            some (e.settle (Wire.p2pAnswerDb X e.p2p rep) fun (p2p, _) =>
              { e with p2p, phase := .bcastPeers })
      else none
  | .pass => if e.phase = .answered then some { e with phase := .bcastPeers } else none
  | .dbPeerOp =>
      match e.toDb with
      | [] => none
      | req :: rest =>
          let e := { e with toDb := rest }
          some (e.settle (Wire.dbPeerOp X e.store req) fun (store, reps) =>
            { e with store, toP2p := e.toP2p ++ reps })
  | .client cmd =>
      some (e.settle (clientOp X e.store cmd) fun (store, notes) =>
        { e with store, toP2p := e.toP2p ++ notes.map DbRep.frames })

def step (p2pPort : Nat) (e : Exposed) (input : Input X) : Option Exposed :=
  if e.fault = none then stepRunning X p2pPort e input else none

end Exposed

/-! ## The daemon whose messages have been read -/

/-- The same daemon, and the messages its inproc pair means. -/
structure Simulates (e : Exposed) (d : Daemon) : Prop where
  p2p : e.p2p = d.p2p
  phase : e.phase = d.phase
  store : e.store = d.store
  fault : e.fault = d.fault
  toDb : List.Forall₂ DbReq.Carries e.toDb d.toDb
  toP2p : List.Forall₂ DbRep.Carries e.toP2p d.toP2p

variable {X : Platform}

/-- The event an input means. An unknown command is logged, as an empty list of peers
would change nothing. -/
inductive Means : Input X → Event X → Prop where
  | bcastPeers : Means .bcastPeers .bcastPeers
  | bcastHashes : Means .bcastHashes .bcastHashes
  | sendDbRequests : Means .sendDbRequests .sendDbRequests
  | answerP2p {msg : Frames} {m : PeerMsg} : Parses msg m → Means (.answerP2p msg) (.answerP2p m)
  | unknown {msg : Frames} : UnknownCmd msg → Means (.answerP2p msg) (.answerP2p (.peer []))
  | answerDb : Means .answerDb .answerDb
  | pass : Means .pass .pass
  | dbPeerOp : Means .dbPeerOp .dbPeerOp
  | client (cmd : ClientCmd X) : Means (.client cmd) (.client cmd)

theorem simulates_start (peers : List Bytes) (db : Database) :
    Simulates (.start X peers db) (.start X peers db) :=
  ⟨rfl, rfl, rfl, rfl, .nil, .nil⟩

theorem p2pAnswerP2p_unknown {msg : Frames} (unknown : UnknownCmd msg) (p2pPort : Nat)
    (myHashes : List Bytes) (st : P2p) :
    Wire.p2pAnswerP2p X p2pPort myHashes st msg = .ok (st, []) := by
  obtain ⟨peer, hash, req, doc⟩ := unknown
  simp only [Wire.p2pAnswerP2p, next_cons, ok_bind, if_neg peer, if_neg hash, if_neg req, if_neg doc]
  rfl

namespace Simulates

variable {e : Exposed} {d : Daemon}

theorem settle {α β : Type} {R : α → β → Prop} {x : Except Fault α} {y : Except Fault β}
    {after : α → Exposed} {after' : β → Daemon × Sends} (sim : Simulates e d) (agree : Agree R x y)
    (ok : ∀ a b, R a b → Simulates (after a) (after' b).1) :
    Simulates (e.settle x after) (d.settle y after').1 := by
  cases agree with
  | ok related => exact ok _ _ related
  | error f => exact ⟨sim.p2p, sim.phase, sim.store, rfl, sim.toDb, sim.toP2p⟩

/-- What a client request sends is a note. -/
theorem agree_clientOp (cmd : ClientCmd X) (store : Store) :
    Agree (fun r q => r = q ∧ q.2 = [.new]) (clientOp X store cmd) (clientOp X store cmd) := by
  cases done : clientOp X store cmd with
  | ok r => exact .ok ⟨rfl, clientOp_notes done⟩
  | error f => exact .error f

/-- **Each step is one of the daemon whose messages have been read.** -/
theorem step {e' : Exposed} {p2pPort : Nat} {input : Input X} {event : Event X}
    (sim : Simulates e d) (means : Means input event)
    (stepped : e.step X p2pPort input = some e') :
    ∃ d' sends, d.act p2pPort event = some (d', sends) ∧ Simulates e' d' := by
  obtain ⟨p2p, phase, store, framesDb, framesP2p, fault⟩ := e
  obtain ⟨p2p, phase, store, reqs, reps, fault⟩ := d
  obtain ⟨rfl, rfl, rfl, rfl, toDb, toP2p⟩ := id sim
  dsimp only at toDb toP2p
  simp only [Exposed.step, Option.ite_none_right_eq_some] at stepped
  obtain ⟨running, stepped⟩ := stepped
  simp only [Daemon.act, if_pos running]
  cases means with
  | bcastPeers =>
      simp only [Exposed.stepRunning, Option.ite_none_right_eq_some] at stepped
      obtain ⟨here, stepped⟩ := stepped
      cases stepped
      simp only [Daemon.actRunning, if_pos here]
      exact ⟨_, _, rfl, rfl, rfl, rfl, rfl, toDb, toP2p⟩
  | bcastHashes =>
      simp only [Exposed.stepRunning, Option.ite_none_right_eq_some] at stepped
      obtain ⟨here, stepped⟩ := stepped
      cases stepped
      simp only [Daemon.actRunning, if_pos here]
      exact ⟨_, _, rfl, rfl, rfl, rfl, rfl, toDb, toP2p⟩
  | sendDbRequests =>
      simp only [Exposed.stepRunning, Option.ite_none_right_eq_some] at stepped
      obtain ⟨here, stepped⟩ := stepped
      cases stepped
      simp only [Daemon.actRunning, if_pos here]
      refine ⟨_, _, rfl, sim.settle (.refl _) ?_⟩
      rintro r _ rfl
      exact ⟨rfl, rfl, rfl, rfl, toDb, toP2p⟩
  | answerP2p parses =>
      simp only [Exposed.stepRunning, Option.ite_none_right_eq_some] at stepped
      obtain ⟨here, stepped⟩ := stepped
      cases stepped
      simp only [Daemon.actRunning, if_pos here]
      refine ⟨_, _, rfl, sim.settle (p2pAnswerP2p_parses parses ..) ?_⟩
      rintro ⟨p2p, frames⟩ ⟨p2p', new⟩ ⟨rfl, carries⟩
      exact ⟨rfl, rfl, rfl, rfl, List.rel_append toDb carries, toP2p⟩
  | unknown unknown =>
      simp only [Exposed.stepRunning, Option.ite_none_right_eq_some,
        p2pAnswerP2p_unknown unknown] at stepped
      obtain ⟨here, stepped⟩ := stepped
      cases stepped
      simp only [Daemon.actRunning, if_pos here]
      exact ⟨_, _, rfl, rfl, rfl, rfl, rfl, List.rel_append toDb .nil, toP2p⟩
  | answerDb =>
      simp only [Exposed.stepRunning, Option.ite_none_right_eq_some] at stepped
      obtain ⟨here, stepped⟩ := stepped
      cases toP2p with
      | nil => cases stepped
      | cons carries rest =>
          cases stepped
          simp only [Daemon.actRunning, if_pos here]
          refine ⟨_, _, rfl, settle ⟨rfl, rfl, rfl, rfl, toDb, rest⟩
            (p2pAnswerDb_carries carries _) ?_⟩
          rintro ⟨p2p, sends⟩ ⟨p2p', sends'⟩ ⟨rfl, -⟩
          exact ⟨rfl, rfl, rfl, rfl, toDb, rest⟩
  | pass =>
      simp only [Exposed.stepRunning, Option.ite_none_right_eq_some] at stepped
      obtain ⟨here, stepped⟩ := stepped
      cases stepped
      simp only [Daemon.actRunning, if_pos here]
      exact ⟨_, _, rfl, rfl, rfl, rfl, rfl, toDb, toP2p⟩
  | dbPeerOp =>
      simp only [Exposed.stepRunning] at stepped
      cases toDb with
      | nil => cases stepped
      | cons carries rest =>
          cases stepped
          refine ⟨_, _, rfl, settle ⟨rfl, rfl, rfl, rfl, rest, toP2p⟩
            (dbPeerOp_carries carries _) ?_⟩
          rintro ⟨store, frames⟩ ⟨store', new⟩ ⟨rfl, carries'⟩
          exact ⟨rfl, rfl, rfl, rfl, rest, List.rel_append toP2p carries'⟩
  | client cmd =>
      cases stepped
      refine ⟨_, _, rfl, sim.settle (agree_clientOp cmd store) ?_⟩
      rintro ⟨store', notes⟩ _ ⟨rfl, rfl⟩
      exact ⟨rfl, rfl, rfl, rfl, toDb, List.rel_append toP2p (.cons .new .nil)⟩

end Simulates

end Piac
