/-
# Network.Basic — daemons on one host

Any number of daemons, each with its own peer port, known to the others as
`localhost:<port>` and under no other name. A peer socket writes to the link to
the daemon with that address; an address nobody listens on swallows what is sent
to it. Links are reliable, unbounded and FIFO.

A step is one event of one daemon, the delivery of one message, or a restart.
A restart keeps the database and forgets everything else: the daemon knows its
command-line peers again, what its router had queued is lost, and so is the end of
what its own sockets had not handed over yet. A sender that still has a socket for
the daemon keeps the rest of its messages for it.

`step_took` splits every step into the turn of one daemon (`Took`) or a restart;
`mirrored_of_run` is the invariant that all network results rest on.
-/
import Piac.Daemon.Effects
import Piac.Daemon.Reference
import Piac.Theory.MessagePassing

namespace Piac

set_option autoImplicit false

open Piac.Theory.CppString Piac.Theory.Transition Piac.Theory.MessagePassing

universe u

/-- The daemons as they are started. -/
structure Config (X : Platform) (ι : Type u) where
  port : ι → Nat
  port_injective : Function.Injective port
  cmdline : ι → List Bytes
  defaultP2pPort : Nat
  db : ι → Database
  wellStored : ∀ i, WellStored X (db i)
  connectable_localhost : ∀ i, X.connectable (localhost (port i)) = true
  /-- A daemon whose own list names a malformed endpoint does not start. -/
  connectable_peers : ∀ i, ∀ a ∈ initialPeers (cmdline i) defaultP2pPort (port i),
    X.connectable a = true

abbrev Network (ι : Type u) := Net ι Daemon PeerMsg

inductive Label (X : Platform) (ι : Type u) where
  | act (i : ι) (event : Event X)
  | deliver (src dst : ι)
  /-- Killed and started again; `lost` messages of each incoming link are gone, `kept` of
  each outgoing one are not. -/
  | restart (i : ι) (lost kept : ι → Nat)

variable {X : Platform} {ι : Type u}

namespace Config

variable (C : Config X ι)

def address (i : ι) : Bytes := localhost (C.port i)

def peers (i : ι) : List Bytes := initialPeers (C.cmdline i) C.defaultP2pPort (C.port i)

theorem address_injective : Function.Injective C.address := fun _ _ same =>
  C.port_injective (stdToString_injective (List.append_cancel_left same))

def init : Network ι where
  node i := .start X (C.peers i) (C.db i)
  link _ _ := []

end Config

/-- Everything but the arrival of a peer's message. -/
def Event.isLocal : Event X → Bool
  | .answerP2p _ => false
  | _ => true

variable [DecidableEq ι]

/-- The network after a restart of `i`. -/
def restarted (C : Config X ι) (net : Network ι) (i : ι) (lost kept : ι → Nat) : Network ι where
  node := Function.update net.node i (.start X (C.peers i) (net.node i).store.db)
  link a b :=
    if b = i then
      if C.address i ∈ (net.node a).p2p.myPeers then (net.link a i).drop (lost a) else []
    else if a = i then (net.link i b).take (kept b)
    else net.link a b

def step (C : Config X ι) (net : Network ι) : Label X ι → Option (Network ι)
  | .act i event =>
      if event.isLocal then
        ((net.node i).act (C.port i) event).map fun (d, sends) =>
          net.post i d (route C.address sends)
      else none
  | .deliver src dst =>
      (net.pop src dst).bind fun (msg, rest) =>
        ((net.node dst).act (C.port dst) (.answerP2p msg : Event X)).map fun (d, sends) =>
          rest.post dst d (route C.address sends)
  | .restart i lost kept => some (restarted C net i lost kept)

/-- Daemon `i` took a turn: on an event of its own, or on the message `input`. -/
structure Took (C : Config X ι) (net net' : Network ι) (l : Label X ι) (i : ι) (event : Event X)
    (input : Option (ι × PeerMsg)) (d : Daemon) (sends : Sends) : Prop where
  running : (net.node i).fault = none
  acts : Acts (C.port i) (net.node i) event d sends
  turn : Turn net net' i input d (route C.address sends)
  label : (l = .act i event ∧ event.isLocal = true ∧ input = none) ∨
    ∃ src msg, l = .deliver src i ∧ event = .answerP2p msg ∧ input = some (src, msg)

namespace Took

variable {C : Config X ι} {net net' : Network ι} {l : Label X ι} {i : ι} {event : Event X}
  {input : Option (ι × PeerMsg)} {d : Daemon} {sends : Sends}

/-- A message that is answered was the oldest of a link. -/
theorem source {msg : PeerMsg}
    (took : Took C net net' l i (.answerP2p msg) input d sends) :
    ∃ src, input = some (src, msg) ∧ l = .deliver src i ∧ msg ∈ net.link src i := by
  rcases took.label with ⟨-, isLocal, -⟩ | ⟨src, msg', rfl, same, rfl⟩
  · cases isLocal
  · cases same
    exact ⟨src, rfl, rfl, took.turn.mem_input⟩

theorem input_eq {src : ι} {msg : PeerMsg}
    (took : Took C net net' l i event (some (src, msg)) d sends) : event = .answerP2p msg := by
  rcases took.label with ⟨-, -, impossible⟩ | ⟨src', msg', -, rfl, same⟩
  · cases impossible
  · cases same; rfl

theorem client_label {cmd : ClientCmd X}
    (took : Took C net net' l i (.client cmd) input d sends) : l = .act i (.client cmd) := by
  rcases took.label with ⟨rfl, -, -⟩ | ⟨_, _, -, same, -⟩
  · rfl
  · cases same

/-- A message in flight stays so or is the one answered. -/
theorem mem_kept (took : Took C net net' l i event input d sends) {a b : ι} {m : PeerMsg}
    (member : m ∈ net.link a b) :
    m ∈ net'.link a b ∨ (b = i ∧ event = .answerP2p m ∧ input = some (a, m)) := by
  refine (took.turn.mem_kept member).imp_right ?_
  rintro ⟨rfl, rfl⟩
  exact ⟨rfl, took.input_eq, rfl⟩

theorem mem_new (took : Took C net net' l i event input d sends) {a b : ι} {m : PeerMsg}
    (member : m ∈ net'.link a b) :
    m ∈ net.link a b ∨ (a = i ∧ (C.address b, m) ∈ sends) :=
  (took.turn.mem_new member).imp_right fun ⟨same, sent⟩ => ⟨same, mem_route.mp sent⟩

theorem mem_sent (took : Took C net net' l i event input d sends) {b : ι} {m : PeerMsg}
    (member : (C.address b, m) ∈ sends) : m ∈ net'.link i b :=
  took.turn.mem_sent (mem_route.mpr member)

end Took

theorem step_took {C : Config X ι} {net net' : Network ι} {l : Label X ι}
    (mirrored : ∀ i, Mirrors X (net.node i).store) (stepped : step C net l = some net') :
    (∃ i lost kept, l = .restart i lost kept ∧ net' = restarted C net i lost kept) ∨
      ∃ i event input d sends, Took C net net' l i event input d sends := by
  cases l with
  | act i event =>
      simp only [step, Option.ite_none_right_eq_some, Option.map_eq_some_iff] at stepped
      obtain ⟨isLocal, ⟨d, sends⟩, acted, rfl⟩ := stepped
      obtain ⟨running, acts⟩ := act_acts (mirrored i) acted
      exact .inr ⟨i, event, none, d, sends, running, acts, turn_of_post .., .inl ⟨rfl, isLocal, rfl⟩⟩
  | deliver src dst =>
      simp only [step, Option.bind_eq_some_iff, Option.map_eq_some_iff] at stepped
      obtain ⟨⟨msg, rest⟩, popped, ⟨d, sends⟩, acted, rfl⟩ := stepped
      obtain ⟨running, acts⟩ := act_acts (mirrored dst) acted
      exact .inr ⟨dst, .answerP2p msg, some (src, msg), d, sends, running, acts,
        turn_of_pop popped d _, .inr ⟨src, msg, rfl, rfl, rfl⟩⟩
  | restart i lost kept =>
      cases stepped
      exact .inl ⟨i, lost, kept, rfl, rfl⟩

/-! ## After a restart -/

theorem restarted_self (C : Config X ι) (net : Network ι) (k : ι) (lost kept : ι → Nat) :
    (restarted C net k lost kept).node k = .start X (C.peers k) (net.node k).store.db :=
  Function.update_self ..

theorem restarted_other (C : Config X ι) (net : Network ι) {k i : ι} (lost kept : ι → Nat)
    (other : i ≠ k) : (restarted C net k lost kept).node i = net.node i :=
  Function.update_of_ne other ..

theorem mem_restarted_link {C : Config X ι} {net : Network ι} {k i j : ι} {lost kept : ι → Nat}
    {m : PeerMsg} (member : m ∈ (restarted C net k lost kept).link i j) : m ∈ net.link i j := by
  simp only [restarted] at member
  split at member
  · rename_i here
    subst here
    split at member
    · exact List.mem_of_mem_drop member
    · cases member
  · split at member
    · rename_i here
      subst here
      exact List.mem_of_mem_take member
    · exact member

/-! ## The mirror in every state -/

omit [DecidableEq ι] in
theorem mirrored_init (C : Config X ι) (i : ι) : Mirrors X ((C.init).node i).store :=
  dbUpdateHashes_mirrors (C.wellStored i)

theorem mirrored_step {C : Config X ι} {net net' : Network ι} {l : Label X ι}
    (mirrored : ∀ i, Mirrors X (net.node i).store) (stepped : step C net l = some net') (k : ι) :
    Mirrors X (net'.node k).store := by
  rcases step_took mirrored stepped with ⟨i, lost, kept, -, rfl⟩ |
    ⟨i, event, input, d, sends, took⟩
  · by_cases here : k = i
    · subst here
      have node : (restarted C net k lost kept).node k =
          .start X (C.peers k) (net.node k).store.db := Function.update_self ..
      rw [node]
      exact dbUpdateHashes_mirrors (mirrored k).well
    · have node : (restarted C net i lost kept).node k = net.node k :=
        Function.update_of_ne here ..
      rw [node]
      exact mirrored k
  · by_cases here : k = i
    · subst here
      rw [took.turn.node_self]
      exact took.acts.mirrors (mirrored k)
    · rw [took.turn.node_other k here]
      exact mirrored k

/-- The runs of a network whose steps are all allowed. -/
abbrev NetRun (C : Config X ι) (allowed : Network ι → Label X ι → Prop) (ls : List (Label X ι))
    (net : Network ι) : Prop :=
  Run (step C) allowed C.init ls net

/-- **Every database is well stored and mirrored in every state of every run.** -/
theorem mirrored_of_run {C : Config X ι} {allowed : Network ι → Label X ι → Prop}
    {ls : List (Label X ι)} {net : Network ι} (run : NetRun C allowed ls net) (i : ι) :
    Mirrors X (net.node i).store :=
  have mirrored : ∀ i, Mirrors X (net.node i).store :=
    run.invariant (mirrored_init C) fun _ _ _ mirrored _ stepped => mirrored_step mirrored stepped
  mirrored i

/-! ## Invariants of runs -/

/-- No step of the run restarts a daemon. -/
def NoRestart (_ : Network ι) (l : Label X ι) : Prop :=
  ∀ i lost kept, l ≠ .restart i lost kept

instance (net : Network ι) (l : Label X ι) : Decidable (NoRestart net l) :=
  match l with
  | .act _ _ => .isTrue nofun
  | .deliver _ _ => .isTrue nofun
  | .restart i lost kept => .isFalse fun steady => steady i lost kept rfl

/-- A step of a handler, no client command and no restart. -/
def Handling (net : Network ι) (l : Label X ι) : Prop :=
  NoRestart net l ∧ ∀ i cmd, l ≠ .act i (.client cmd)

instance (net : Network ι) (l : Label X ι) : Decidable (Handling net l) :=
  match l with
  | .act i (.client cmd) => .isFalse fun handling => handling.2 i cmd rfl
  | .restart i lost kept => .isFalse fun handling => handling.1 i lost kept rfl
  | .deliver _ _ => .isTrue ⟨nofun, nofun⟩
  | .act _ .bcastPeers => .isTrue ⟨nofun, nofun⟩
  | .act _ .bcastHashes => .isTrue ⟨nofun, nofun⟩
  | .act _ .sendDbRequests => .isTrue ⟨nofun, nofun⟩
  | .act _ (.answerP2p _) => .isTrue ⟨nofun, nofun⟩
  | .act _ .answerDb => .isTrue ⟨nofun, nofun⟩
  | .act _ .pass => .isTrue ⟨nofun, nofun⟩
  | .act _ .dbPeerOp => .isTrue ⟨nofun, nofun⟩

omit [DecidableEq ι] in
/-- Whether a step is one of a handler does not depend on the state. -/
theorem Handling.anywhere {net net' : Network ι} {l : Label X ι} (handling : Handling net l) :
    Handling net' l := handling

/-- Without restarts an invariant is one of every turn. -/
theorem history_of_turns {C : Config X ι} {allowed : Network ι → Label X ι → Prop}
    (steady : ∀ net l, allowed net l → NoRestart net l)
    {Inv : List (Label X ι) → Network ι → Prop} {ls : List (Label X ι)} {net : Network ι}
    (run : NetRun C allowed ls net) (start : Inv [] C.init)
    (keeps : ∀ {ls net l net' n event input d sends}, (∀ i, Mirrors X (net.node i).store) →
      Inv ls net → allowed net l → Took C net net' l n event input d sends →
      Inv (ls ++ [l]) net') : Inv ls net := by
  have both : (∀ i, Mirrors X (net.node i).store) ∧ Inv ls net := by
    refine @Run.history _ _ (step C) allowed
      (fun ls net => (∀ i, Mirrors X (net.node i).store) ∧ Inv ls net) _ _ _ run
      ⟨mirrored_init C, start⟩ ?_
    rintro ls net l net' ⟨mirrored, inv⟩ ok stepped
    refine ⟨mirrored_step mirrored stepped, ?_⟩
    rcases step_took mirrored stepped with ⟨i, lost, kept, same, -⟩ |
      ⟨n, event, input, d, sends, took⟩
    · exact absurd same (steady net l ok i lost kept)
    · exact keeps mirrored inv ok took
  exact both.2

theorem invariant_of_turns {C : Config X ι} {allowed : Network ι → Label X ι → Prop}
    (steady : ∀ net l, allowed net l → NoRestart net l) {Inv : Network ι → Prop}
    {ls : List (Label X ι)} {net : Network ι} (run : NetRun C allowed ls net)
    (start : Inv C.init)
    (keeps : ∀ {net l net' n event input d sends}, (∀ i, Mirrors X (net.node i).store) →
      Inv net → allowed net l → Took C net net' l n event input d sends → Inv net') : Inv net :=
  @history_of_turns _ _ _ C allowed steady (fun _ => Inv) ls net run start fun mirrored inv ok took =>
    keeps mirrored inv ok took

/-! ## What holds of every daemon and of every message -/

/-- `Q` of every daemon, `R` of every message in flight. -/
structure Everywhere (Q : Daemon → Prop) (R : PeerMsg → Prop) (net : Network ι) : Prop where
  daemons : ∀ i, Q (net.node i)
  messages : ∀ i j, ∀ m ∈ net.link i j, R m

section Everywhere

variable {C : Config X ι} {Q : Daemon → Prop} {R : PeerMsg → Prop}

theorem Took.answered {net net' : Network ι} {l : Label X ι} {n : ι} {m : PeerMsg}
    {input : Option (ι × PeerMsg)} {d : Daemon} {sends : Sends}
    (took : Took C net net' l n (.answerP2p m) input d sends)
    (everywhere : Everywhere Q R net) : R m := by
  obtain ⟨src, -, -, inFlight⟩ := took.source
  exact everywhere.messages src n m inFlight

/-- What a daemon keeps in its turn, and what it sends, is all there is to check. -/
theorem everywhere_of_run {allowed : Network ι → Label X ι → Prop} {ls : List (Label X ι)}
    {net : Network ι} (run : NetRun C allowed ls net)
    (start : ∀ i db, Q (.start X (C.peers i) db))
    (keeps : ∀ {net l net' n event input d sends}, (∀ i, Mirrors X (net.node i).store) →
      Everywhere Q R net → allowed net l → Took C net net' l n event input d sends →
      Q d ∧ ∀ a m, (a, m) ∈ sends → R m) : Everywhere Q R net := by
  have both : (∀ i, Mirrors X (net.node i).store) ∧ Everywhere Q R net := by
    refine @Run.invariant _ _ (step C) allowed
      (fun net => (∀ i, Mirrors X (net.node i).store) ∧ Everywhere Q R net) _ _ _ run
      ⟨mirrored_init C, fun i => start i _, fun _ _ _ member => absurd member List.not_mem_nil⟩ ?_
    rintro net l net' ⟨mirrored, everywhere⟩ ok stepped
    refine ⟨mirrored_step mirrored stepped, ?_⟩
    rcases step_took mirrored stepped with ⟨k, lost, kept, -, rfl⟩ |
      ⟨n, event, input, d, sends, took⟩
    · refine ⟨fun i => ?_, fun i j m member => everywhere.messages i j m (mem_restarted_link member)⟩
      by_cases here : i = k
      · subst here; rw [restarted_self]; exact start i _
      · rw [restarted_other C net lost kept here]; exact everywhere.daemons i
    · obtain ⟨after, sent⟩ := keeps mirrored everywhere ok took
      refine ⟨fun i => ?_, fun i j m member => ?_⟩
      · by_cases here : i = n
        · subst here; rwa [took.turn.node_self]
        · rw [took.turn.node_other i here]; exact everywhere.daemons i
      · rcases took.mem_new member with old | ⟨-, new⟩
        · exact everywhere.messages i j m old
        · exact sent _ m new
  exact both.2

end Everywhere

/-! ## Two daemons to run -/

/-- Two daemons with empty databases and no peers on the command line, on the default port
and the next one: the second starts with the first as its peer. -/
def pair (ndebug : Bool) : Config (reference ndebug) (Fin 2) where
  port i := 65090 + i
  port_injective _ _ same := Fin.ext (Nat.add_left_cancel same)
  cmdline _ := []
  defaultP2pPort := 65090
  db _ := []
  wellStored _ := .nil
  connectable_localhost _ :=
    Reference.connectable_localhost _ (stdToString_ne_nil _) fun _ => isDigit_stdToString
  connectable_peers := by
    have peers : ∀ i : Fin 2, ∀ a ∈ initialPeers [] 65090 (65090 + i),
        Reference.connectable a = true := by decide
    exact peers

/-- A daemon's way to its poll. -/
def round (i : ι) : List (Label X ι) :=
  [.act i .bcastPeers, .act i .bcastHashes, .act i .sendDbRequests]

/-- An answer to a message of the daemon `src`, and the way back to the poll. -/
def answer (src i : ι) : List (Label X ι) := .deliver src i :: .act i .pass :: round i

/-- An answer to a message of the db thread, and the way back to the poll. -/
def answerDb (i : ι) : List (Label X ι) := .act i .answerDb :: round i

/-- What `i` has that `j` lacks goes from `i` to `j`, after a note of `i`'s db thread: HASH,
REQ, GET and PUT, DOC, INS and NEW, and the HASH of `j`. -/
def transfer (i j : ι) : List (Label X ι) :=
  answerDb i ++ answer i j ++ [.deliver j i, .act i .dbPeerOp] ++ answerDb i ++
    [.deliver i j, .act j .dbPeerOp] ++ answerDb j ++ answer j i

end Piac
