/-
# Daemon.P2pThread — the peer-to-peer thread

The functions `p2p_thread` calls, on messages whose frames have been read
(`PeerMsg`, `DbReq`, `DbRep`; `Daemon.Wire` has the frames). A peer is an address:
the socket in `my_peers` is connected to the address it is stored under, and a
function that writes to sockets returns the messages with their addresses.

`my_peers` and `db_requests` are walked in the order of their lists.
-/
import Piac.Daemon.DbThread

namespace Piac

set_option autoImplicit false

open Piac.Theory.CppString

variable (X : Platform)

/-- The address other daemons know this one by. -/
def localhost (port : Nat) : Bytes := bytes "localhost:" ++ stdToString port

/-- A message from one daemon's peer socket to another's router. -/
inductive PeerMsg where
  | peer (addrs : List Bytes)
  | hash (sender : Bytes) (hashes : List Bytes)
  | req (addr : Bytes) (hashes : List Bytes)
  | doc (docs : List Bytes)
  deriving DecidableEq

/-- The variables of `p2p_thread`. -/
structure P2p where
  myPeers : List Bytes
  dbRequests : List (Bytes × List Bytes)
  toBcastPeers : Bool
  toBcastHashes : Bool
  toSendDbRequests : Bool
  deriving DecidableEq

/-- Messages with the address of the socket they are written to. -/
abbrev Sends := List (Bytes × PeerMsg)

/-! ## Startup -/

/-- `std::unordered_map::emplace` of a key. -/
def emplace (peers : List Bytes) (addr : Bytes) : List Bytes :=
  if addr ∈ peers then peers else peers ++ [addr]

/-- The peers `p2p_thread` starts with: those of the command line but for the own
address, then the default ports below the one that was bound. -/
def initialPeers (cmdline : List Bytes) (defaultP2pPort p2pPort : Nat) : List Bytes :=
  let given := (cmdline.foldl emplace []).filter fun addr => addr ≠ localhost p2pPort
  ((List.range' defaultP2pPort (p2pPort - defaultP2pPort)).map localhost).foldl emplace given

def P2p.start (peers : List Bytes) : P2p :=
  { myPeers := peers, dbRequests := [], toBcastPeers := true, toBcastHashes := true,
    toSendDbRequests := false }

/-! ## Broadcasts and requests -/

def p2pBcastPeers (p2pPort : Nat) (st : P2p) : P2p × Sends :=
  if st.toBcastPeers then
    ({ st with toBcastPeers := false },
      st.myPeers.map fun addr => (addr, .peer (localhost p2pPort :: st.myPeers)))
  else (st, [])

def p2pBcastHashes (p2pPort : Nat) (myHashes : List Bytes) (st : P2p) : P2p × Sends :=
  if st.toBcastHashes then
    ({ st with toBcastHashes := false },
      st.myPeers.map fun addr => (addr, .hash (localhost p2pPort) myHashes))
  else (st, [])

/-- `my_peers.at( addr ).send( msg )`. -/
def sendAt {Msg : Type} (st : P2p) (addr : Bytes) (msg : Msg) : Except Fault (Bytes × Msg) :=
  if addr ∈ st.myPeers then .ok (addr, msg) else .error .mapAt

def p2pSendDbRequests (p2pPort : Nat) (st : P2p) : Except Fault (P2p × Sends) :=
  if st.toSendDbRequests then do
    let sends ← st.dbRequests.mapM fun request =>
      sendAt st request.1 (PeerMsg.req (localhost p2pPort) request.2)
    return ({ st with dbRequests := [], toSendDbRequests := false }, sends)
  else .ok (st, [])

/-! ## Messages of peers -/

/-- One address of a PEER message. -/
def learnPeer (p2pPort : Nat) (st : P2p) (addr : Bytes) : Except Fault P2p :=
  if addr ≠ localhost p2pPort ∧ addr ∉ st.myPeers then
    if X.connectable addr then
      .ok { st with myPeers := st.myPeers ++ [addr], toBcastPeers := true, toBcastHashes := true }
    else .error .endpoint
  else .ok st

/-- `db_requests[ from ].insert( hash )`. -/
def recordRequest (sender hash : Bytes) : List (Bytes × List Bytes) → List (Bytes × List Bytes)
  | [] => [(sender, [hash])]
  | (addr, hashes) :: rest =>
      if addr = sender then (addr, emplace hashes hash) :: rest
      else (addr, hashes) :: recordRequest sender hash rest

/-- One hash of a HASH message. -/
def noteHash (myHashes : List Bytes) (sender : Bytes) (st : P2p) (hash : Bytes) : P2p :=
  if hash ∈ myHashes then st
  else { st with dbRequests := recordRequest sender hash st.dbRequests, toSendDbRequests := true }

/-- `p2p_answer_p2p`: the variables after it and what it sends to the db thread. -/
def p2pAnswerP2p (p2pPort : Nat) (myHashes : List Bytes) (st : P2p) :
    PeerMsg → Except Fault (P2p × List DbReq)
  | .peer addrs => do
      let st ← addrs.foldlM (learnPeer X p2pPort) st
      return (st, [])
  | .hash sender hashes => .ok (hashes.foldl (noteHash myHashes sender) st, [])
  | .req addr hashes => do
      X.assert .req (hashes ≠ [])
      return (st, [.get addr hashes])
  | .doc docs => do
      X.assert .doc (docs ≠ [])
      return (st, [.ins (unknownDocs X myHashes docs)])

/-! ## Messages of the db thread -/

/-- `p2p_answer_db`: the variables after it and what it sends to peers. -/
def p2pAnswerDb (st : P2p) : DbRep → Except Fault (P2p × Sends)
  | .put addr docs => do
      X.assert .put (docs ≠ [])
      let send ← sendAt st addr (.doc docs)
      return (st, [send])
  | .new => .ok ({ st with toBcastHashes := true }, [])

end Piac
