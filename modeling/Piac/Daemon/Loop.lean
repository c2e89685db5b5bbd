/-
# Daemon.Loop — one daemon: the two thread loops and the inproc pair

The p2p thread goes round `bcastPeers → bcastHashes → sendDbRequests → poll`; at the
poll it waits for a message of a peer or of the db thread, answers at most one of
each, the peer's first, and starts over. The db thread takes a client request or a
message of the p2p thread at any time. Which inputs the pollers report when
several are ready is left open.

One call of a handler is one event: the calls of the two threads come in any order,
but are taken as atomic. Of the inproc pair that asks nothing, since a message can
always be pushed later. It is an assumption about `my_hashes`, which the p2p thread
reads without the mutex while the db thread may rebuild it: `Daemon.Shared` takes the
handlers apart, and says when a run is one of these (`Shared.act_view`,
`SharedNet.step_view`).

A fault ends the process: nothing is enabled any more.
-/
import Piac.Daemon.P2pThread

namespace Piac

set_option autoImplicit false

open Piac.Theory.CppString

variable (X : Platform)

/-- Where the p2p thread stands in its loop. -/
inductive Phase where
  | bcastPeers
  | bcastHashes
  | sendDbRequests
  | poll
  /-- A peer's message has been answered, a message of the db thread may follow. -/
  | answered
  deriving DecidableEq

structure Daemon where
  p2p : P2p
  phase : Phase
  store : Store
  /-- The inproc pair, p2p thread to db thread. -/
  toDb : List DbReq
  /-- The inproc pair, db thread to p2p thread. -/
  toP2p : List DbRep
  fault : Option Fault
  deriving DecidableEq

/-- A daemon at the start of both loops: the peers it was given, the hashes of its
database read. -/
def Daemon.start (peers : List Bytes) (db : Database) : Daemon :=
  { p2p := .start peers, phase := .bcastPeers, store := dbUpdateHashes X ⟨db, []⟩,
    toDb := [], toP2p := [], fault := none }

/-- One call of a handler in one of the threads. -/
inductive Event where
  | bcastPeers
  | bcastHashes
  | sendDbRequests
  | answerP2p (msg : PeerMsg)
  | answerDb
  /-- No message of the db thread is answered this time round. -/
  | pass
  | dbPeerOp
  | client (cmd : ClientCmd X)

variable {X}

/-- The calls that the p2p thread makes in its loop. -/
def Event.ofP2p : Event X → Bool
  | .dbPeerOp => false
  | .client _ => false
  | _ => true

namespace Daemon

/-- The daemon after a handler that returned, or with the fault that ended it. -/
def settle {α : Type} (d : Daemon) (result : Except Fault α) (after : α → Daemon × Sends) :
    Daemon × Sends :=
  match result with
  | .ok a => after a
  | .error f => ({ d with fault := some f }, [])

/-- What an event does to a running daemon, and the messages it writes to peer
sockets; `none` if the event is not enabled. -/
def actRunning (p2pPort : Nat) (d : Daemon) : Event X → Option (Daemon × Sends)
  | .bcastPeers =>
      if d.phase = .bcastPeers then
        let (p2p, sends) := p2pBcastPeers p2pPort d.p2p
        some ({ d with p2p, phase := .bcastHashes }, sends)
      else none
  | .bcastHashes =>
      if d.phase = .bcastHashes then
        let (p2p, sends) := p2pBcastHashes p2pPort d.store.myHashes d.p2p
        some ({ d with p2p, phase := .sendDbRequests }, sends)
      else none
  | .sendDbRequests =>
      if d.phase = .sendDbRequests then
        some (d.settle (p2pSendDbRequests p2pPort d.p2p) fun (p2p, sends) =>
          ({ d with p2p, phase := .poll }, sends))
      else none
  | .answerP2p msg =>
      if d.phase = .poll then
        some (d.settle (p2pAnswerP2p X p2pPort d.store.myHashes d.p2p msg) fun (p2p, reqs) =>
          ({ d with p2p, phase := .answered, toDb := d.toDb ++ reqs }, []))
      else none
  | .answerDb =>
      if d.phase = .poll ∨ d.phase = .answered then
        match d.toP2p with
        | [] => none
        | rep :: rest =>
            let d := { d with toP2p := rest }
            some (d.settle (p2pAnswerDb X d.p2p rep) fun (p2p, sends) =>
              ({ d with p2p, phase := .bcastPeers }, sends))
      else none
  | .pass =>
      if d.phase = .answered then some ({ d with phase := .bcastPeers }, []) else none
  | .dbPeerOp =>
      match d.toDb with
      | [] => none
      | req :: rest =>
          let d := { d with toDb := rest }
          some (d.settle (Piac.dbPeerOp X d.store req) fun (store, reps) =>
            ({ d with store, toP2p := d.toP2p ++ reps }, []))
  | .client cmd =>
      some (d.settle (clientOp X d.store cmd) fun (store, notes) =>
        ({ d with store, toP2p := d.toP2p ++ notes }, []))

def act (p2pPort : Nat) (d : Daemon) (event : Event X) : Option (Daemon × Sends) :=
  if d.fault = none then actRunning p2pPort d event else none

end Daemon

end Piac
