/-
# Network.Hosts — daemons on several hosts

A daemon is known as `<host>:<port>` everywhere and as `localhost:<port>` on its own
host, and it names itself `localhost:<port>` whoever it writes to. An address is
resolved where it is used, so the same one reaches different daemons from different
hosts (`reaches`). Each peer socket has a queue of its own; `heard` keeps, for every
HASH and REQ that a daemon is to answer, the address it named and the daemon it came
from.

* `Acts.awaits`, `Acts.awaited`: the addresses a daemon is to answer at are those of
  the HASHes and REQs it has taken.
* `step_returns_iff`: a step leaves the answers to the daemons that asked exactly if it
  takes no HASH or REQ that is to be answered from another host, and no PEER with the
  receiver's own `<host>:<port>`.
* `answers_return`: so they return in every run of such steps.
* `one_host`: which is every run, when all daemons share a host and nobody uses its name.
* `answer_astray`: three daemons on two hosts, where a request goes to a third daemon and
  a daemon becomes its own peer.
-/
import Piac.Network.Routing

namespace Piac

set_option autoImplicit false

open Piac.Theory.CppString Piac.Theory.Transition Piac.Theory.MessagePassing

universe u

/-- The daemons as they are started, each on its host. -/
structure Placement (X : Platform) (ι : Type u) where
  host : ι → Bytes
  port : ι → Nat
  distinct : ∀ i j, host i = host j → port i = port j → i = j
  host_ne : ∀ i, host i ≠ bytes "localhost"
  cmdline : ι → List Bytes
  defaultP2pPort : Nat
  db : ι → Database
  wellStored : ∀ i, WellStored X (db i)

/-- The daemons, what their peer sockets have not handed over yet, and whom they heard. -/
structure Hosted (ι : Type u) where
  node : ι → Daemon
  /-- The messages in the socket of a daemon for an address, oldest first. -/
  socket : ι → Bytes → List PeerMsg
  /-- The addresses that a daemon was to answer at since it started, and who named them. -/
  heard : ι → List (Bytes × ι)

inductive HostLabel (X : Platform) (ι : Type u) where
  | act (i : ι) (event : Event X)
  /-- The oldest message in the socket of `src` for `addr` arrives at `dst`. -/
  | deliver (src : ι) (addr : Bytes) (dst : ι)
  /-- Killed and started again; `lost` messages of each socket that reaches it are gone, `kept`
  of each of its own are not. -/
  | restart (i : ι) (lost : ι → Bytes → Nat) (kept : Bytes → Nat)

variable {X : Platform} {ι : Type u}

/-! ## Addresses -/

/-- The address at which the answer to a message is to be sent, if one is. -/
def awaited (myHashes : List Bytes) : PeerMsg → List Bytes
  | .hash sender wanted => if ∀ h ∈ wanted, h ∈ myHashes then [] else [sender]
  | .req addr _ => [addr]
  | .peer _ | .doc _ => []

/-- The addresses a message hands on. -/
def introduced (msg : PeerMsg) : List Bytes :=
  match msg with
  | .peer addrs => addrs
  | .hash _ _ | .req _ _ | .doc _ => []

namespace Placement

variable (P : Placement X ι)

/-- `<host>:<port>`. -/
def named (i : ι) : Bytes := P.host i ++ bytes ":" ++ stdToString (P.port i)

def peers (i : ι) : List Bytes := initialPeers (P.cmdline i) P.defaultP2pPort (P.port i)

/-- A socket of `i` for the address is connected to `j`. -/
def reaches (i : ι) (addr : Bytes) (j : ι) : Bool :=
  addr = P.named j || (addr = localhost (P.port j) && P.host i = P.host j)

def init : Hosted ι where
  node i := .start X (P.peers i) (P.db i)
  socket _ _ := []
  heard _ := []

end Placement

theorem colon_notMem (port : Nat) : 58 ∉ stdToString port := notMem_stdToString (by decide)

namespace Placement

variable {P : Placement X ι}

/-- A host name is none of `localhost`. -/
theorem named_ne_localhost (i : ι) (port : Nat) : P.named i ≠ localhost port := by
  intro same
  have colon : bytes "localhost:" = bytes "localhost" ++ [58] := by decide
  simp only [named, localhost, colon, List.append_assoc] at same
  exact P.host_ne i (append_cons_injective (colon_notMem _) (colon_notMem _) same).1

theorem reaches_iff {i j : ι} {addr : Bytes} : P.reaches i addr j = true ↔
    addr = P.named j ∨ (addr = localhost (P.port j) ∧ P.host i = P.host j) := by
  simp [reaches]

/-- What a daemon calls itself reaches it from its own host only. -/
theorem reaches_localhost {i j : ι} :
    P.reaches i (localhost (P.port j)) j = true ↔ P.host i = P.host j := by
  rw [reaches_iff]
  constructor
  · rintro (same | ⟨-, here⟩)
    · exact absurd same.symm (named_ne_localhost j _)
    · exact here
  · exact fun here => .inr ⟨rfl, here⟩

/-- Only its two names lead a daemon to itself. -/
theorem reaches_self {i : ι} {addr : Bytes} :
    P.reaches i addr i = true ↔ addr = P.named i ∨ addr = localhost (P.port i) := by
  simp [reaches_iff]

end Placement

/-! ## Steps -/

section Steps

variable [DecidableEq ι]

/-- Daemon `i` goes to the state `d` and writes to its sockets. -/
def Hosted.post (w : Hosted ι) (i : ι) (d : Daemon) (sends : Sends) : Hosted ι where
  node := Function.update w.node i d
  socket a addr := if a = i then w.socket a addr ++ route id sends addr else w.socket a addr
  heard := w.heard

namespace Placement

variable (P : Placement X ι)

def restarted (w : Hosted ι) (i : ι) (lost : ι → Bytes → Nat) (kept : Bytes → Nat) :
    Hosted ι where
  node := Function.update w.node i (.start X (P.peers i) (w.node i).store.db)
  socket a addr :=
    if a = i then (w.socket a addr).take (kept addr)
    else if P.reaches a addr i then (w.socket a addr).drop (lost a addr)
    else w.socket a addr
  heard := Function.update w.heard i []

def step (w : Hosted ι) : HostLabel X ι → Option (Hosted ι)
  | .act i event =>
      if event.isLocal then
        ((w.node i).act (P.port i) event).map fun (d, sends) => w.post i d sends
      else none
  | .deliver src addr dst =>
      match w.socket src addr with
      | [] => none
      | msg :: rest =>
          if P.reaches src addr dst then
            ((w.node dst).act (P.port dst) (.answerP2p msg : Event X)).map fun (d, sends) =>
              let asks := (awaited (w.node dst).store.myHashes msg).map fun a => (a, src)
              let w := { w with
                socket := fun a b => if a = src ∧ b = addr then rest else w.socket a b
                heard := Function.update w.heard dst (w.heard dst ++ asks) }
              w.post dst d sends
          else none
  | .restart i lost kept => some (P.restarted w i lost kept)

end Placement

/-- Daemon `i` took a turn on `event`, and after it was to answer `asks` besides. -/
structure HostTurn (P : Placement X ι) (w w' : Hosted ι) (l : HostLabel X ι) (i : ι)
    (event : Event X) (asks : List (Bytes × ι)) (d : Daemon) (sends : Sends) : Prop where
  acts : Acts (P.port i) (w.node i) event d sends
  node : w'.node = Function.update w.node i d
  socket : ∀ a addr m, m ∈ w'.socket a addr →
    m ∈ w.socket a addr ∨ (a = i ∧ (addr, m) ∈ sends)
  heard : w'.heard = Function.update w.heard i (w.heard i ++ asks)
  label : (l = .act i event ∧ event.isLocal = true ∧ asks = []) ∨
    ∃ src addr msg rest, l = .deliver src addr i ∧ w.socket src addr = msg :: rest ∧
      P.reaches src addr i = true ∧ event = .answerP2p msg ∧
      asks = (awaited (w.node i).store.myHashes msg).map fun a => (a, src)

variable {P : Placement X ι} {w w' : Hosted ι} {l : HostLabel X ι}

namespace HostTurn

variable {i : ι} {event : Event X} {asks : List (Bytes × ι)} {d : Daemon} {sends : Sends}

theorem node_self (turn : HostTurn P w w' l i event asks d sends) : w'.node i = d := by
  rw [turn.node, Function.update_self]

theorem node_other (turn : HostTurn P w w' l i event asks d sends) {k : ι} (other : k ≠ i) :
    w'.node k = w.node k := by
  rw [turn.node, Function.update_of_ne other]

theorem heard_self (turn : HostTurn P w w' l i event asks d sends) :
    w'.heard i = w.heard i ++ asks := by
  rw [turn.heard, Function.update_self]

theorem heard_other (turn : HostTurn P w w' l i event asks d sends) {k : ι} (other : k ≠ i) :
    w'.heard k = w.heard k := by
  rw [turn.heard, Function.update_of_ne other]

/-- A message that is answered was the oldest in a socket that reaches the daemon. -/
theorem source {msg : PeerMsg} (turn : HostTurn P w w' l i (.answerP2p msg) asks d sends) :
    ∃ src addr rest, l = .deliver src addr i ∧ w.socket src addr = msg :: rest ∧
      asks = (awaited (w.node i).store.myHashes msg).map fun a => (a, src) := by
  rcases turn.label with ⟨-, isLocal, -⟩ | ⟨src, addr, msg', rest, rfl, waiting, -, same, rfl⟩
  · cases isLocal
  · cases same
    exact ⟨src, addr, rest, rfl, waiting, rfl⟩

end HostTurn

theorem Hosted.mem_post {i a : ι} {d : Daemon} {sends : Sends} {addr : Bytes} {m : PeerMsg}
    (member : m ∈ (w.post i d sends).socket a addr) :
    m ∈ w.socket a addr ∨ (a = i ∧ (addr, m) ∈ sends) := by
  simp only [Hosted.post] at member
  split at member
  · rename_i here
    exact (List.mem_append.mp member).imp_right fun sent => ⟨here, mem_route.mp sent⟩
  · exact .inl member

theorem step_turn (mirrored : ∀ i, Mirrors X (w.node i).store) (stepped : P.step w l = some w') :
    (∃ i lost kept, l = .restart i lost kept ∧ w' = P.restarted w i lost kept) ∨
      ∃ i event asks d sends, HostTurn P w w' l i event asks d sends := by
  cases l with
  | act i event =>
      simp only [Placement.step, Option.ite_none_right_eq_some, Option.map_eq_some_iff] at stepped
      obtain ⟨isLocal, ⟨d, sends⟩, acted, rfl⟩ := stepped
      have same : w.heard = Function.update w.heard i (w.heard i ++ []) := by
        rw [List.append_nil, Function.update_eq_self]
      exact .inr ⟨i, event, [], d, sends, (act_acts (mirrored i) acted).2, rfl,
        fun _ _ _ => Hosted.mem_post, same, .inl ⟨rfl, isLocal, rfl⟩⟩
  | deliver src addr dst =>
      cases waiting : w.socket src addr with
      | nil => simp [Placement.step, waiting] at stepped
      | cons msg rest =>
          simp only [Placement.step, waiting, Option.ite_none_right_eq_some,
            Option.map_eq_some_iff] at stepped
          obtain ⟨reaches, ⟨d, sends⟩, acted, rfl⟩ := stepped
          refine .inr ⟨dst, .answerP2p msg, _, d, sends, (act_acts (mirrored dst) acted).2, rfl,
            fun a b m member => ?_, rfl, .inr ⟨src, addr, msg, rest, rfl, waiting, reaches, rfl, rfl⟩⟩
          refine (Hosted.mem_post member).imp_left fun later => ?_
          simp only at later
          split at later
          · rename_i here
            rw [here.1, here.2, waiting]
            exact List.mem_cons_of_mem _ later
          · exact later
  | restart i lost kept =>
      cases stepped
      exact .inl ⟨i, lost, kept, rfl, rfl⟩

theorem mem_restarted_socket {i a : ι} {lost : ι → Bytes → Nat} {kept : Bytes → Nat}
    {addr : Bytes} {m : PeerMsg} (member : m ∈ (P.restarted w i lost kept).socket a addr) :
    m ∈ w.socket a addr := by
  simp only [Placement.restarted] at member
  split at member
  · exact List.mem_of_mem_take member
  · split at member
    · exact List.mem_of_mem_drop member
    · exact member

end Steps

/-! ## Answers that are due -/

/-- The daemon is to write an answer to its socket for that address. -/
def Owes (d : Daemon) (addr : Bytes) : Prop :=
  (∃ r ∈ d.p2p.dbRequests, r.1 = addr) ∨ (∃ wanted, .get addr wanted ∈ d.toDb) ∨
    ∃ docs, .put addr docs ∈ d.toP2p

/-- What `p2p_send_db_requests` and `p2p_answer_db` write. -/
def IsAnswer : PeerMsg → Prop
  | .req _ _ | .doc _ => True
  | .peer _ | .hash _ _ => False

instance : DecidablePred IsAnswer := fun msg =>
  match msg with
  | .req _ _ => .isTrue trivial
  | .doc _ => .isTrue trivial
  | .peer _ => .isFalse id
  | .hash _ _ => .isFalse id

section Owes

variable {p2pPort : Nat} {d d' : Daemon} {event : Event X} {sends : Sends}

theorem not_owes_start (peers : List Bytes) (db : Database) (addr : Bytes) :
    ¬ Owes (.start X peers db) addr := by
  rintro (⟨r, none_, -⟩ | ⟨wanted, none_⟩ | ⟨docs, none_⟩) <;> cases none_

/-- An answer goes to a socket that one was due at. -/
theorem Acts.answers {addr : Bytes} {m : PeerMsg} (acts : Acts p2pPort d event d' sends)
    (sent : (addr, m) ∈ sends) (answer : IsAnswer m) : Owes d addr := by
  cases acts with
  | bcastPeers _ _ =>
      obtain ⟨b, -, same⟩ := List.mem_map.mp sent
      cases same
      exact answer.elim
  | bcastHashes _ _ =>
      obtain ⟨b, -, same⟩ := List.mem_map.mp sent
      cases same
      exact answer.elim
  | sendDbRequests _ _ _ =>
      obtain ⟨r, member, same⟩ := List.mem_map.mp sent
      cases same
      exact .inl ⟨r, member, rfl⟩
  | @answerPut addr' docs rest _ queue _ _ =>
      cases List.mem_singleton.mp sent
      exact .inr (.inr ⟨docs, by simp [queue]⟩)
  | _ => cases sent

/-- An answer becomes due by the message of a peer only. -/
theorem Acts.awaits {addr : Bytes} (acts : Acts p2pPort d event d' sends) (owes : Owes d' addr) :
    Owes d addr ∨ ∃ msg, event = .answerP2p msg ∧ addr ∈ awaited d.store.myHashes msg := by
  cases acts with
  | sendDbRequests _ _ _ =>
      rcases owes with ⟨r, none_, -⟩ | later
      · cases none_
      · exact .inl (.inr later)
  | recvPeer _ learned =>
      rcases owes with ⟨r, member, same⟩ | later
      · exact .inl (.inl ⟨r, learned.requests ▸ member, same⟩)
      · exact .inl (.inr later)
  | @recvHash sender wanted p2p _ noted =>
      rcases owes with ⟨r, member, rfl⟩ | later
      · rcases noted.mem r member with old | ⟨same, ⟨h, inMsg, unknown⟩, -⟩
        · exact .inl (.inl ⟨r, old, rfl⟩)
        · refine .inr ⟨_, rfl, ?_⟩
          have some_ : ¬ ∀ h ∈ wanted, h ∈ d.store.myHashes := fun all => unknown (all h inMsg)
          simp [awaited, if_neg some_, same]
      · exact .inl (.inr later)
  | @recvReq addr' wanted _ _ =>
      rcases owes with old | ⟨wanted', member⟩ | old
      · exact .inl (.inl old)
      · rcases List.mem_append.mp member with old | new
        · exact .inl (.inr (.inl ⟨wanted', old⟩))
        · cases List.mem_singleton.mp new
          exact .inr ⟨_, rfl, List.mem_singleton_self _⟩
      · exact .inl (.inr (.inr old))
  | recvDoc _ _ =>
      rcases owes with old | ⟨wanted, member⟩ | old
      · exact .inl (.inl old)
      · rcases List.mem_append.mp member with old | new
        · exact .inl (.inr (.inl ⟨wanted, old⟩))
        · cases List.mem_singleton.mp new
      · exact .inl (.inr (.inr old))
  | answerPut _ queue _ _ =>
      rcases owes with old | old | ⟨docs, member⟩
      · exact .inl (.inl old)
      · exact .inl (.inr (.inl old))
      · exact .inl (.inr (.inr ⟨docs, by rw [queue]; exact List.mem_cons_of_mem _ member⟩))
  | answerNew _ queue =>
      rcases owes with old | old | ⟨docs, member⟩
      · exact .inl (.inl old)
      · exact .inl (.inr (.inl old))
      · exact .inl (.inr (.inr ⟨docs, by rw [queue]; exact List.mem_cons_of_mem _ member⟩))
  | @get addr' wanted rest queue _ =>
      rcases owes with old | ⟨wanted', member⟩ | ⟨docs, member⟩
      · exact .inl (.inl old)
      · exact .inl (.inr (.inl ⟨wanted', by rw [queue]; exact List.mem_cons_of_mem _ member⟩))
      · rcases List.mem_append.mp member with old | new
        · exact .inl (.inr (.inr ⟨docs, old⟩))
        · cases List.mem_singleton.mp new
          exact .inl (.inr (.inl ⟨wanted, by simp [queue]⟩))
  | insKnown queue _ =>
      rcases owes with old | ⟨wanted, member⟩ | old
      · exact .inl (.inl old)
      · exact .inl (.inr (.inl ⟨wanted, by rw [queue]; exact List.mem_cons_of_mem _ member⟩))
      · exact .inl (.inr (.inr old))
  | insNew queue _ _ =>
      rcases owes with old | ⟨wanted, member⟩ | ⟨docs, member⟩
      · exact .inl (.inl old)
      · exact .inl (.inr (.inl ⟨wanted, by rw [queue]; exact List.mem_cons_of_mem _ member⟩))
      · rcases List.mem_append.mp member with old | new
        · exact .inl (.inr (.inr ⟨docs, old⟩))
        · cases List.mem_singleton.mp new
  | client _ =>
      rcases owes with old | old | ⟨docs, member⟩
      · exact .inl (.inl old)
      · exact .inl (.inr (.inl old))
      · rcases List.mem_append.mp member with old | new
        · exact .inl (.inr (.inr ⟨docs, old⟩))
        · cases List.mem_singleton.mp new
  | fault _ _ p2p _ toDb toP2p =>
      rcases owes with ⟨r, member, same⟩ | ⟨wanted, member⟩ | ⟨docs, member⟩
      · exact .inl (.inl ⟨r, p2p ▸ member, same⟩)
      · exact .inl (.inr (.inl ⟨wanted, toDb.subset member⟩))
      · exact .inl (.inr (.inr ⟨docs, toP2p.subset member⟩))
  | _ => exact .inl owes

/-- It does become due, unless the message ends the process. -/
theorem Acts.awaited {addr : Bytes} {msg : PeerMsg}
    (acts : Acts p2pPort d (.answerP2p msg : Event X) d' sends) (running : d'.fault = none)
    (asks : addr ∈ Piac.awaited d.store.myHashes msg) : Owes d' addr := by
  cases acts with
  | move moves => cases moves
  | recvPeer _ _ => cases asks
  | @recvHash sender wanted p2p _ noted =>
      simp only [Piac.awaited] at asks
      split at asks
      · cases asks
      · rename_i unknown
        obtain rfl := List.mem_singleton.mp asks
        push Not at unknown
        obtain ⟨h, inMsg, new⟩ := unknown
        obtain ⟨r, member, same, -⟩ := (noted.requested addr h).mpr (.inr ⟨rfl, inMsg, new⟩)
        exact .inl ⟨r, member, same⟩
  | recvReq _ _ =>
      obtain rfl := List.mem_singleton.mp asks
      exact .inr (.inl ⟨_, List.mem_append_right _ (List.mem_singleton_self _)⟩)
  | recvDoc _ _ => cases asks
  | fault _ failed => rw [running] at failed; cases failed

/-- A peer becomes known by a PEER only. -/
theorem Acts.introduces {addr : Bytes} (acts : Acts p2pPort d event d' sends)
    (known : addr ∈ d'.p2p.myPeers) : addr ∈ d.p2p.myPeers ∨
      ∃ msg, event = .answerP2p msg ∧ addr ∈ introduced msg ∧ addr ≠ localhost p2pPort := by
  cases acts with
  | recvPeer _ learned =>
      exact ((learned.mem addr).mp known).imp_right fun new => ⟨_, rfl, new.1, new.2⟩
  | recvHash _ noted => exact .inl (noted.peers ▸ known)
  | fault _ _ same => exact .inl (same ▸ known)
  | _ => exact .inl known

/-- It hands on its own address and those of its peers. -/
theorem Acts.handsOn {a addr : Bytes} {m : PeerMsg} (acts : Acts p2pPort d event d' sends)
    (sent : (a, m) ∈ sends) (member : addr ∈ introduced m) :
    addr = localhost p2pPort ∨ addr ∈ d.p2p.myPeers := by
  cases acts with
  | bcastPeers _ _ =>
      obtain ⟨b, -, same⟩ := List.mem_map.mp sent
      cases same
      exact List.mem_cons.mp member
  | bcastHashes _ _ =>
      obtain ⟨b, -, same⟩ := List.mem_map.mp sent
      cases same
      cases member
  | sendDbRequests _ _ _ =>
      obtain ⟨r, -, same⟩ := List.mem_map.mp sent
      cases same
      cases member
  | answerPut _ _ _ _ =>
      cases List.mem_singleton.mp sent
      cases member
  | _ => cases sent

end Owes

/-! ## Answers that return -/

/-- The socket of `i` for the address is connected to whom `i` has heard from under it. -/
def Placement.ToAsker (P : Placement X ι) (w : Hosted ι) (i : ι) (addr : Bytes) : Prop :=
  (∃ src, (addr, src) ∈ w.heard i) ∧
    ∀ src, (addr, src) ∈ w.heard i → P.reaches i addr src = true

/-- The invariant: the addresses heard lead to the daemons heard, and no peer address of a daemon
leads to itself. -/
structure Returns (P : Placement X ι) (w : Hosted ι) : Prop where
  answers : ∀ i addr, Owes (w.node i) addr → ∃ src, (addr, src) ∈ w.heard i
  heard : ∀ i addr src, (addr, src) ∈ w.heard i → P.reaches i addr src = true
  foreign : ∀ i, ∀ addr ∈ (w.node i).p2p.myPeers, P.reaches i addr i = false

/-- No HASH or REQ that is to be answered comes from another host, and no PEER has the
receiver's own `<host>:<port>`. -/
def NearBy (P : Placement X ι) (w : Hosted ι) : HostLabel X ι → Prop
  | .deliver src addr dst => ∀ msg ∈ (w.socket src addr).head?,
      (awaited (w.node dst).store.myHashes msg ≠ [] → P.host src = P.host dst) ∧
        P.named dst ∉ introduced msg
  | .act _ _ | .restart _ _ _ => True

instance (P : Placement X ι) (w : Hosted ι) (l : HostLabel X ι) : Decidable (NearBy P w l) :=
  match l with
  | .act _ _ => .isTrue trivial
  | .restart _ _ _ => .isTrue trivial
  | .deliver src addr dst => inferInstanceAs (Decidable (∀ msg ∈ (w.socket src addr).head?,
      (awaited (w.node dst).store.myHashes msg ≠ [] → P.host src = P.host dst) ∧
        P.named dst ∉ introduced msg))

section Runs

variable {P : Placement X ι} {w w' : Hosted ι} {l : HostLabel X ι}

theorem awaited_sentBy {myHashes : List Bytes} {msg : PeerMsg} {addr own : Bytes}
    (asks : addr ∈ awaited myHashes msg) (sentBy : SentBy own msg) : addr = own := by
  cases msg with
  | peer addrs => cases asks
  | hash sender wanted =>
      simp only [awaited] at asks
      split at asks
      · cases asks
      · exact (List.mem_singleton.mp asks).trans sentBy
  | req sender wanted => exact (List.mem_singleton.mp asks).trans sentBy
  | doc docs => cases asks

theorem not_reaches_own {i : ι} {addr : Bytes} :
    P.reaches i addr i = false ↔ addr ≠ P.named i ∧ addr ≠ localhost (P.port i) := by
  rw [← Bool.not_eq_true, Placement.reaches_self, not_or]

theorem foreign_start {i : ι} (own : P.named i ∉ P.cmdline i) (db : Database) :
    ∀ addr ∈ (Daemon.start X (P.peers i) db).p2p.myPeers, P.reaches i addr i = false := by
  intro addr member
  rw [not_reaches_own]
  rcases mem_initialPeers.mp member with ⟨given, other⟩ | ⟨p, -, below, rfl⟩
  · exact ⟨fun same => own (same ▸ given), other⟩
  · exact ⟨(Placement.named_ne_localhost i p).symm, fun same => below.ne (localhost_injective same)⟩

/-- The start is in order exactly if no daemon is given its own name. -/
theorem returns_init_iff : Returns P P.init ↔ ∀ i, P.named i ∉ P.cmdline i := by
  constructor
  · intro returns i given
    have own := returns.foreign i (P.named i)
      (mem_initialPeers.mpr (.inl ⟨given, Placement.named_ne_localhost i _⟩))
    exact (not_reaches_own.mp own).1 rfl
  · intro own
    exact ⟨fun i addr owes => absurd owes (not_owes_start _ _ addr),
      fun i addr src none_ => absurd none_ List.not_mem_nil, fun i => foreign_start (own i) _⟩

variable [DecidableEq ι]

/-- What is kept besides, whatever the steps: the mirrors, and who messages say they are from. -/
structure Announced (P : Placement X ι) (w : Hosted ι) : Prop where
  mirrored : ∀ i, Mirrors X (w.node i).store
  messages : ∀ i addr, ∀ m ∈ w.socket i addr, SentBy (localhost (P.port i)) m

omit [DecidableEq ι] in
theorem announced_init : Announced P P.init :=
  ⟨fun i => dbUpdateHashes_mirrors (P.wellStored i), fun _ _ _ none_ => absurd none_ List.not_mem_nil⟩

theorem Announced.step (announced : Announced P w) (stepped : P.step w l = some w') :
    Announced P w' := by
  rcases step_turn announced.mirrored stepped with ⟨i, lost, kept, -, rfl⟩ |
    ⟨i, event, asks, d, sends, turn⟩
  · refine ⟨fun k => ?_, fun k addr m member =>
      announced.messages k addr m (mem_restarted_socket member)⟩
    by_cases here : k = i
    · subst here
      simp only [Placement.restarted, Function.update_self]
      exact dbUpdateHashes_mirrors (announced.mirrored k).well
    · simp only [Placement.restarted, Function.update_of_ne here]
      exact announced.mirrored k
  · refine ⟨fun k => ?_, fun k addr m member => ?_⟩
    · by_cases here : k = i
      · subst here
        rw [turn.node_self]
        exact turn.acts.mirrors (announced.mirrored k)
      · rw [turn.node_other here]
        exact announced.mirrored k
    · rcases turn.socket k addr m member with old | ⟨rfl, sent⟩
      · exact announced.messages k addr m old
      · exact (turn.acts.sent sent).2.1

/-- A step that is not near by leaves an address that leads astray. -/
theorem Returns.nearBy (announced : Announced P w) (stepped : P.step w l = some w')
    (running : ∀ i, (w'.node i).fault = none) (returns : Returns P w') : NearBy P w l := by
  rcases step_turn announced.mirrored stepped with ⟨i, lost, kept, rfl, -⟩ |
    ⟨i, event, asks, d, sends, turn⟩
  · trivial
  rcases turn.label with ⟨rfl, -, -⟩ | ⟨src, addr, msg, rest, rfl, waiting, -, rfl, rfl⟩
  · trivial
  intro msg' oldest
  cases (waiting ▸ oldest : msg' ∈ (msg :: rest).head?)
  constructor
  · intro some_
    obtain ⟨a, asks⟩ := List.exists_mem_of_ne_nil _ some_
    obtain rfl : a = localhost (P.port src) := awaited_sentBy asks
      (announced.messages src addr msg (by rw [waiting]; exact List.mem_cons_self))
    have heard : (localhost (P.port src), src) ∈ w'.heard i := by
      rw [turn.heard_self]
      exact List.mem_append_right _ (List.mem_map.mpr ⟨_, asks, rfl⟩)
    exact (Placement.reaches_localhost.mp (returns.heard i _ src heard)).symm
  · intro own
    have learned : P.named i ∈ (w'.node i).p2p.myPeers := by
      cases msg with
      | peer addrs =>
          rw [turn.node_self]
          exact ((turn.acts.learned (turn.node_self ▸ running i)).mem _).mpr
            (.inr ⟨own, Placement.named_ne_localhost i _⟩)
      | hash _ _ => cases own
      | req _ _ => cases own
      | doc _ => cases own
    exact (not_reaches_own.mp (returns.foreign i _ learned)).1 rfl

theorem Returns.restarted (own : ∀ i, P.named i ∉ P.cmdline i) (returns : Returns P w) (i : ι)
    (lost : ι → Bytes → Nat) (kept : Bytes → Nat) : Returns P (P.restarted w i lost kept) := by
  refine ⟨fun k addr owes => ?_, fun k addr src heard => ?_, fun k => ?_⟩ <;> by_cases here : k = i
  · subst here
    simp only [Placement.restarted, Function.update_self] at owes
    exact absurd owes (not_owes_start _ _ addr)
  · simp only [Placement.restarted, Function.update_of_ne here] at owes ⊢
    exact returns.answers k addr owes
  · subst here
    simp only [Placement.restarted, Function.update_self] at heard
    cases heard
  · simp only [Placement.restarted, Function.update_of_ne here] at heard
    exact returns.heard k addr src heard
  · subst here
    simp only [Placement.restarted, Function.update_self]
    exact foreign_start (own k) _
  · simp only [Placement.restarted, Function.update_of_ne here]
    exact returns.foreign k

namespace HostTurn

variable {i : ι} {event : Event X} {asks : List (Bytes × ι)} {d : Daemon} {sends : Sends}

/-- An address that is named by a daemon of the same host leads back to it. -/
theorem asks_reach (turn : HostTurn P w w' l i event asks d sends) (announced : Announced P w)
    (nearBy : NearBy P w l) {addr : Bytes} {src : ι} (asked : (addr, src) ∈ asks) :
    P.reaches i addr src = true := by
  rcases turn.label with ⟨-, -, rfl⟩ | ⟨src', a, msg, rest, rfl, waiting, -, -, rfl⟩
  · cases asked
  obtain ⟨b, awaits, same⟩ := List.mem_map.mp asked
  cases same
  have near := nearBy msg (by rw [waiting]; rfl)
  obtain rfl : addr = localhost (P.port src) := awaited_sentBy awaits
    (announced.messages src a msg (by rw [waiting]; exact List.mem_cons_self))
  exact Placement.reaches_localhost.mpr (near.1 (List.ne_nil_of_mem awaits)).symm

theorem returns (turn : HostTurn P w w' l i event asks d sends) (announced : Announced P w)
    (returns : Returns P w) (nearBy : NearBy P w l) : Returns P w' := by
  refine ⟨fun k addr owes => ?_, fun k addr src heard => ?_, fun k addr known => ?_⟩ <;>
    by_cases here : k = i
  · subst here
    rw [turn.node_self] at owes
    rw [turn.heard_self]
    rcases turn.acts.awaits owes with old | ⟨msg, rfl, new⟩
    · obtain ⟨src, heard⟩ := returns.answers k addr old
      exact ⟨src, List.mem_append_left _ heard⟩
    · obtain ⟨src, _, _, -, -, rfl⟩ := turn.source
      exact ⟨src, List.mem_append_right _ (List.mem_map.mpr ⟨addr, new, rfl⟩)⟩
  · rw [turn.node_other here] at owes
    rw [turn.heard_other here]
    exact returns.answers k addr owes
  · subst here
    rw [turn.heard_self] at heard
    rcases List.mem_append.mp heard with old | asked
    · exact returns.heard k addr src old
    · exact turn.asks_reach announced nearBy asked
  · rw [turn.heard_other here] at heard
    exact returns.heard k addr src heard
  · subst here
    rw [turn.node_self] at known
    rcases turn.acts.introduces known with old | ⟨msg, rfl, handed, other⟩
    · exact returns.foreign k addr old
    · obtain ⟨_, _, _, rfl, waiting, -⟩ := turn.source
      have near := nearBy msg (by rw [waiting]; rfl)
      exact not_reaches_own.mpr ⟨fun same => near.2 (same ▸ handed), other⟩
  · rw [turn.node_other here] at known
    exact returns.foreign k addr known

end HostTurn

theorem Returns.step (own : ∀ i, P.named i ∉ P.cmdline i) (announced : Announced P w)
    (returns : Returns P w) (nearBy : NearBy P w l) (stepped : P.step w l = some w') :
    Returns P w' := by
  rcases step_turn announced.mirrored stepped with ⟨i, lost, kept, -, rfl⟩ |
    ⟨i, event, asks, d, sends, turn⟩
  · exact returns.restarted own i lost kept
  · exact turn.returns announced returns nearBy

/-- **A step keeps the answers on their way back exactly if it is near by.** -/
theorem step_returns_iff (own : ∀ i, P.named i ∉ P.cmdline i) (announced : Announced P w)
    (returns : Returns P w) (stepped : P.step w l = some w')
    (running : ∀ i, (w'.node i).fault = none) : Returns P w' ↔ NearBy P w l :=
  ⟨fun after => after.nearBy announced stepped running,
    fun nearBy => returns.step own announced nearBy stepped⟩

theorem sound_of_run {ls : List (HostLabel X ι)} (own : ∀ i, P.named i ∉ P.cmdline i)
    (run : Run P.step (NearBy P) P.init ls w) : Announced P w ∧ Returns P w :=
  @Run.invariant _ _ _ _ (fun w => Announced P w ∧ Returns P w) _ _ _ run
    ⟨announced_init, returns_init_iff.mpr own⟩ fun _ _ _ sound nearBy stepped =>
      ⟨sound.1.step stepped, sound.2.step own sound.1 nearBy stepped⟩

omit [DecidableEq ι] in
theorem Returns.toAsker {i : ι} {event : Event X} {d : Daemon} {sends : Sends} {addr : Bytes}
    {m : PeerMsg} (returns : Returns P w) (announced : Announced P w)
    (acted : (w.node i).act (P.port i) event = some (d, sends)) (sent : (addr, m) ∈ sends)
    (answer : IsAnswer m) : P.ToAsker w i addr :=
  ⟨returns.answers i addr ((act_acts (announced.mirrored i) acted).2.answers sent answer),
    returns.heard i addr⟩

/-- **Answers return to the daemon that asked, and no daemon is its own peer**, in every run in
which what is to be answered comes from the same host and no daemon is told its own name. -/
theorem answers_return {ls : List (HostLabel X ι)} (own : ∀ i, P.named i ∉ P.cmdline i)
    (run : Run P.step (NearBy P) P.init ls w) :
    (∀ i (event : Event X) d sends addr m, (w.node i).act (P.port i) event = some (d, sends) →
      (addr, m) ∈ sends → IsAnswer m → P.ToAsker w i addr) ∧
    ∀ i, ∀ addr ∈ (w.node i).p2p.myPeers, P.reaches i addr i = false := by
  obtain ⟨announced, returns⟩ := sound_of_run own run
  exact ⟨fun i event d sends addr m acted sent answer =>
    returns.toAsker announced acted sent answer, returns.foreign⟩

/-! ## One host -/

/-- Nobody uses the name of the host. -/
structure Unnamed (P : Placement X ι) (w : Hosted ι) : Prop where
  peers : ∀ i, ∀ addr ∈ (w.node i).p2p.myPeers, ∀ j, addr ≠ P.named j
  messages : ∀ i a, ∀ m ∈ w.socket i a, ∀ addr ∈ introduced m, ∀ j, addr ≠ P.named j

omit [DecidableEq ι] in
theorem unnamed_start {i : ι} (plain : ∀ i j, P.named j ∉ P.cmdline i) (db : Database) :
    ∀ addr ∈ (Daemon.start X (P.peers i) db).p2p.myPeers, ∀ j, addr ≠ P.named j := by
  rintro addr member j rfl
  rcases mem_initialPeers.mp member with ⟨given, -⟩ | ⟨p, -, -, same⟩
  · exact plain i j given
  · exact Placement.named_ne_localhost j p same

theorem Unnamed.step (plain : ∀ i j, P.named j ∉ P.cmdline i) (announced : Announced P w)
    (unnamed : Unnamed P w) (stepped : P.step w l = some w') : Unnamed P w' := by
  rcases step_turn announced.mirrored stepped with ⟨i, lost, kept, -, rfl⟩ |
    ⟨i, event, asks, d, sends, turn⟩
  · refine ⟨fun k => ?_, fun k a m member => unnamed.messages k a m (mem_restarted_socket member)⟩
    by_cases here : k = i
    · subst here
      simp only [Placement.restarted, Function.update_self]
      exact unnamed_start plain _
    · simp only [Placement.restarted, Function.update_of_ne here]
      exact unnamed.peers k
  · refine ⟨fun k addr known => ?_, fun k a m member addr handed => ?_⟩
    · by_cases here : k = i
      · subst here
        rw [turn.node_self] at known
        rcases turn.acts.introduces known with old | ⟨msg, rfl, handed, -⟩
        · exact unnamed.peers k addr old
        · obtain ⟨src, a, _, -, waiting, -⟩ := turn.source
          exact unnamed.messages src a msg (by rw [waiting]; exact List.mem_cons_self) addr handed
      · rw [turn.node_other here] at known
        exact unnamed.peers k addr known
    · rcases turn.socket k a m member with old | ⟨rfl, sent⟩
      · exact unnamed.messages k a m old addr handed
      · rcases turn.acts.handsOn sent handed with rfl | known
        · exact fun j => (Placement.named_ne_localhost j _).symm
        · exact unnamed.peers k addr known

/-- **On one host answers return in every run**, if all peers are given as `localhost:<port>`. -/
theorem one_host {ls : List (HostLabel X ι)} (together : ∀ i j, P.host i = P.host j)
    (plain : ∀ i j, P.named j ∉ P.cmdline i) (run : Run P.step (fun _ _ => True) P.init ls w) :
    Returns P w := by
  have sound : (Announced P w ∧ Returns P w) ∧ Unnamed P w := by
    refine @Run.invariant _ _ _ _ (fun w => (Announced P w ∧ Returns P w) ∧ Unnamed P w) _ _ _ run
      ⟨⟨announced_init, returns_init_iff.mpr fun i => plain i i⟩, fun i => unnamed_start plain _,
        fun _ _ _ none_ => absurd none_ List.not_mem_nil⟩ ?_
    rintro w l w' ⟨⟨announced, returns⟩, unnamed⟩ - stepped
    have nearBy : NearBy P w l := by
      cases l with
      | act i event => trivial
      | restart i lost kept => trivial
      | deliver src addr dst =>
          intro msg oldest
          refine ⟨fun _ => together src dst, fun handed => ?_⟩
          exact unnamed.messages src addr msg (List.mem_of_mem_head? oldest) _ handed dst rfl
    exact ⟨⟨announced.step stepped, returns.step (fun i => plain i i) announced nearBy stepped⟩,
      unnamed.step plain announced stepped⟩
  exact sound.1.2

end Runs

/-! ## Two hosts -/

/-- Two daemons on one host: the second has the first as its peer. -/
def neighbours : Placement (reference true) (Fin 2) where
  host _ := bytes "alpha"
  port i := 65090 + i
  distinct := by decide
  host_ne := by decide
  cmdline _ := []
  defaultP2pPort := 65090
  db _ := []
  wellStored _ := .nil

def hostRound {ι : Type u} (i : ι) : List (HostLabel (reference true) ι) :=
  [.act i .bcastPeers, .act i .bcastHashes, .act i .sendDbRequests]

/-- It applies when the first of two daemons on a host requests an ad of the second. -/
theorem answers_return_neighbours : ∃ ls w,
    Run neighbours.step (NearBy neighbours) neighbours.init ls w ∧
    ∃ d sends, (w.node 0).act 65090 (.sendDbRequests : Event (reference true)) = some (d, sends) ∧
      sends ≠ [] ∧ ∀ addr m, (addr, m) ∈ sends → IsAnswer m → neighbours.ToAsker w 0 addr := by
  let ls : List (HostLabel (reference true) (Fin 2)) :=
    List.flatten [[.act 1 (.client (.add Reference.alice [Reference.ad 1]))], hostRound 1,
      hostRound 0, [.deliver 1 (localhost 65090) 0, .act 0 .pass], hostRound 0,
      [.deliver 1 (localhost 65090) 0, .act 0 .pass, .act 0 .bcastPeers, .act 0 .bcastHashes]]
  let w := (exec (guarded neighbours.step (NearBy neighbours)) neighbours.init ls).get
    (by decide +kernel)
  have run : Run neighbours.step (NearBy neighbours) neighbours.init ls w := .checked _
  have requests : (((w.node 0).act 65090 (.sendDbRequests : Event (reference true))).any
      fun after => after.2 != []) = true := by decide +kernel
  clear_value w
  obtain ⟨⟨d, sends⟩, acted, some_⟩ := (Option.any_eq_true _ _).mp requests
  exact ⟨ls, w, run, d, sends, acted, by simpa using some_, fun addr m sent answer =>
    (answers_return (by decide) run).1 0 .sendDbRequests d sends addr m acted sent answer⟩

/-- Three daemons on two hosts. The one on the second host is given the first as its peer. -/
def twoHosts : Placement (reference true) (Fin 3) where
  host i := if i = 1 then bytes "beta" else bytes "alpha"
  port i := if i = 0 then 65090 else 65091
  distinct := by decide
  host_ne := by decide
  cmdline i := if i = 1 then [bytes "alpha:65090"] else []
  defaultP2pPort := 65090
  db _ := []
  wellStored _ := .nil

/-- **A request goes astray**: the first daemon hears of an ad from the second, on another host,
and requests it of the third, on its own. It also becomes its own peer. -/
theorem answer_astray : ∃ ls w, Run twoHosts.step (fun _ _ => True) twoHosts.init ls w ∧
    (∃ d sends addr m,
      (w.node 0).act 65090 (.sendDbRequests : Event (reference true)) = some (d, sends) ∧
      (addr, m) ∈ sends ∧ IsAnswer m ∧ (addr, 1) ∈ w.heard 0 ∧
      twoHosts.reaches 0 addr 1 = false ∧ twoHosts.reaches 0 addr 2 = true) ∧
    ∃ addr ∈ (w.node 0).p2p.myPeers, twoHosts.reaches 0 addr 0 = true := by
  let ls : List (HostLabel (reference true) (Fin 3)) :=
    List.flatten [[.act 1 (.client (.add Reference.alice [Reference.ad 1]))], hostRound 1,
      hostRound 0, [.deliver 1 (bytes "alpha:65090") 0, .act 0 .pass], hostRound 0,
      [.deliver 1 (bytes "alpha:65090") 0, .act 0 .pass, .act 0 .bcastPeers, .act 0 .bcastHashes]]
  let w := (exec twoHosts.step twoHosts.init ls).get (by decide +kernel)
  have run : Run twoHosts.step (fun _ _ => True) twoHosts.init ls w :=
    .computed _ fun _ _ _ => trivial
  have requests : (((w.node 0).act 65090 (.sendDbRequests : Event (reference true))).any
      fun after => after.2.any fun s => s.1 = localhost 65091 && IsAnswer s.2) = true := by
    decide +kernel
  have heard : (localhost 65091, 1) ∈ w.heard 0 := by decide +kernel
  have itself : bytes "alpha:65090" ∈ (w.node 0).p2p.myPeers := by decide +kernel
  clear_value w
  obtain ⟨⟨d, sends⟩, acted, some_⟩ := (Option.any_eq_true _ _).mp requests
  obtain ⟨⟨addr, m⟩, sent, shape⟩ := List.any_eq_true.mp some_
  obtain ⟨rfl, answer⟩ : addr = localhost 65091 ∧ IsAnswer m := by simpa using shape
  exact ⟨ls, w, run, ⟨d, sends, _, m, acted, sent, answer, heard, by decide, by decide⟩,
    _, itself, by decide⟩

end Piac
