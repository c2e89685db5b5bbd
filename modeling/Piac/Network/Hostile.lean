/-
# Network.Hostile — messages that do not end the process

Nothing in the two threads catches an exception, and the handlers rely on what a
peer sends: on the count and on the frames it counts, on addresses that can be
connected to, on senders that are on the peer list, on entries that have all
members of an ad. `Fair` is what a message has to meet for that, in the state in
which it is answered; `Harmless` adds what a Debug build asserts of the user of a
client and of what the database finds.

In a run whose steps are all harmless no exception is thrown and no assertion
fails (`harmless_runs`). The count frame alone is enough for a peer to end the
process (`malformed_count_fatal`).
-/
import Piac.Daemon.Exposed
import Piac.Network.Counts
import Piac.Store.Authorship

namespace Piac

set_option autoImplicit false

open Piac.Theory.CppString Piac.Theory.Transition

variable {X : Platform}

/-- What a message of a peer has to meet in the state in which it is answered. -/
def Fair (X : Platform) (p2p : P2p) (store : Store) : PeerMsg → Prop
  | .peer addrs => ∀ a ∈ addrs, X.connectable a = true
  | .hash sender wanted => sender ∈ p2p.myPeers ∨ ∀ h ∈ wanted, h ∈ store.myHashes
  | .req addr wanted => addr ∈ p2p.myPeers ∧ (X.ndebug = true ∨ Askable wanted)
  | .doc docs =>
      (∀ d ∈ unknownDocs X store.myHashes docs, Document.deserialize X d ≠ .error .json) ∧
        (X.ndebug = true ∨ unknownDocs X store.myHashes docs ≠ [])

/-- A peer's message is an unknown command or it means a fair one; in a Debug build a
client names a user, and a GET that is handled asks for something that is stored. -/
def Harmless (e : Exposed) : Input X → Prop
  | .answerP2p msg => UnknownCmd msg ∨ ∃ m, Parses msg m ∧ Fair X e.p2p e.store m
  | .dbPeerOp => X.ndebug = true ∨ ∀ addr size wanted,
      e.toDb.head? = some (bytes "GET" :: addr :: size :: wanted) →
        ∃ h ∈ wanted, h ∈ Piac.hashes X e.store.db
  | .client cmd => X.ndebug = true ∨ cmd.author ≠ []
  | _ => True

/-! ## What keeps a daemon running -/

structure Unharmed (X : Platform) (d : Daemon) : Prop where
  running : d.fault = none
  mirrors : Mirrors X d.store
  answerable : Answerable d
  gets : ∀ addr wanted, .get addr wanted ∈ d.toDb → X.ndebug = true ∨ Askable wanted
  ins : ∀ docs, .ins docs ∈ d.toDb → (X.ndebug = true ∨ docs ≠ []) ∧
    ∀ e ∈ docs, Document.deserialize X e ≠ .error .json
  puts : ∀ addr docs, .put addr docs ∈ d.toP2p → X.ndebug = true ∨ docs ≠ []

theorem Unharmed.start {db : Database} (well : WellStored X db) (peers : List Bytes) :
    Unharmed X (.start X peers db) where
  running := rfl
  mirrors := dbUpdateHashes_mirrors well
  answerable := .start X peers db
  gets _ _ member := absurd member List.not_mem_nil
  ins _ member := absurd member List.not_mem_nil
  puts _ _ member := absurd member List.not_mem_nil

section Events

variable {p2pPort : Nat} {d d' : Daemon} {event : Event X} {sends : Sends}

/-- Nothing that could end an unharmed daemon is left of an event on a fair message. -/
theorem Faults.excluded {f : Fault} (faults : Faults d event f) (unharmed : Unharmed X d)
    (fair : ∀ m, event = .answerP2p m → Fair X d.p2p d.store m)
    (named : ∀ cmd, event = .client cmd → X.ndebug = true ∨ cmd.author ≠ []) : False := by
  cases faults with
  | request _ _ member missing => exact missing (unharmed.answerable.requests _ member)
  | peer member refused =>
      have accepted := fair _ rfl _ member
      rw [refused] at accepted
      cases accepted
  | req debug => exact (fair _ rfl).2.elim (by simp [debug]) fun askable => askable.1 rfl
  | doc debug => exact (fair _ rfl).2.elim (by simp [debug]) fun some_ => some_ rfl
  | put debug member => exact (unharmed.puts _ _ member).elim (by simp [debug]) fun some_ => some_ rfl
  | reply member missing => exact missing (unharmed.answerable.puts _ _ member)
  | @peerOp req _ member reason =>
      cases req with
      | get addr wanted =>
          obtain ⟨debug, reason⟩ := reason
          have askable := (unharmed.gets _ _ member).resolve_left (by simp [debug])
          rcases reason with ⟨-, empty⟩ | ⟨-, h, inSet, size⟩
          · exact askable.1 empty
          · exact size (askable.2 h inSet)
      | ins docs =>
          obtain ⟨some_, readable⟩ := unharmed.ins _ member
          rcases reason with ⟨debug, -, empty⟩ | ⟨-, e, inDocs, unreadable⟩
          · exact some_.elim (by simp [debug]) fun some_ => some_ empty
          · exact readable e inDocs unreadable
  | client debug nobody => exact (named _ rfl).elim (by simp [debug]) fun named => named nobody

theorem Acts.unharmed (acts : Acts p2pPort d event d' sends) (unharmed : Unharmed X d)
    (fair : ∀ m, event = .answerP2p m → Fair X d.p2p d.store m)
    (finds : event = .dbPeerOp → X.ndebug = true ∨ ∀ addr wanted,
      d.toDb.head? = some (.get addr wanted) → ∃ h ∈ wanted, h ∈ Piac.hashes X d.store.db)
    (named : ∀ cmd, event = .client cmd → X.ndebug = true ∨ cmd.author ≠ []) :
    Unharmed X d' := by
  have mirrors := acts.mirrors unharmed.mirrors
  have answerable : Answerable d' := by
    refine acts.answerable unharmed.running unharmed.answerable ?_ ?_
    · rintro sender wanted rfl ⟨h, inSet, unknown⟩
      exact (fair _ rfl).resolve_right fun known => unknown (known h inSet)
    · rintro addr wanted rfl
      exact (fair _ rfl).1
  obtain ⟨running, -, -, gets, ins, puts⟩ := id unharmed
  cases acts with
  | move _ => exact ⟨running, mirrors, answerable, gets, ins, puts⟩
  | bcastPeers _ _ => exact ⟨running, mirrors, answerable, gets, ins, puts⟩
  | bcastHashes _ _ => exact ⟨running, mirrors, answerable, gets, ins, puts⟩
  | sendDbRequests _ _ _ => exact ⟨running, mirrors, answerable, gets, ins, puts⟩
  | recvPeer _ _ => exact ⟨running, mirrors, answerable, gets, ins, puts⟩
  | recvHash _ _ => exact ⟨running, mirrors, answerable, gets, ins, puts⟩
  | recvReq _ _ =>
      refine ⟨running, mirrors, answerable, fun addr wanted member => ?_,
        fun docs member => ins docs (by simpa using member), puts⟩
      rcases List.mem_append.mp member with old | new
      · exact gets addr wanted old
      · cases List.mem_singleton.mp new
        exact (fair _ rfl).2
  | recvDoc _ _ =>
      refine ⟨running, mirrors, answerable, fun addr wanted member => gets addr wanted
        (by simpa using member), fun docs member => ?_, puts⟩
      rcases List.mem_append.mp member with old | new
      · exact ins docs old
      · cases List.mem_singleton.mp new
        exact ⟨(fair _ rfl).2, (fair _ rfl).1⟩
  | answerPut _ queue _ _ =>
      exact ⟨running, mirrors, answerable, gets, ins,
        fun addr docs member => puts addr docs (by simp [queue, member])⟩
  | answerNew _ queue =>
      exact ⟨running, mirrors, answerable, gets, ins,
        fun addr docs member => puts addr docs (by simp [queue, member])⟩
  | @get addr wanted rest queue _ =>
      refine ⟨running, mirrors, answerable,
        fun addr wanted member => gets addr wanted (by simp [queue, member]),
        fun docs member => ins docs (by simp [queue, member]), fun a docs member => ?_⟩
      rcases List.mem_append.mp member with old | new
      · exact puts a docs old
      · cases List.mem_singleton.mp new
        refine (finds rfl).imp_right fun found empty => ?_
        obtain ⟨h, inSet, stored⟩ := found addr wanted (by rw [queue]; rfl)
        obtain ⟨entry, under⟩ := Option.isSome_iff_exists.mp (entryUnder_isSome.mpr stored)
        exact List.ne_nil_of_mem (List.mem_filterMap.mpr ⟨h, inSet, under⟩) empty
  | insKnown queue _ =>
      exact ⟨running, mirrors, answerable,
        fun addr wanted member => gets addr wanted (by simp [queue, member]),
        fun docs member => ins docs (by simp [queue, member]), puts⟩
  | insNew queue _ _ =>
      exact ⟨running, mirrors, answerable,
        fun addr wanted member => gets addr wanted (by simp [queue, member]),
        fun docs member => ins docs (by simp [queue, member]),
        fun addr docs member => puts addr docs (by simpa using member)⟩
  | client _ =>
      exact ⟨running, mirrors, answerable, gets, ins,
        fun addr docs member => puts addr docs (by simpa using member)⟩
  | fault why _ _ _ _ _ => exact (why.excluded unharmed fair named).elim

end Events

/-! ## Runs -/

/-- A harmless input means an event that `Acts.unharmed` is about. -/
theorem Simulates.means {e : Exposed} {d : Daemon} {input : Input X} (sim : Simulates e d)
    (harmless : Harmless e input) : ∃ event, Means input event ∧
      (∀ m, event = .answerP2p m → Fair X d.p2p d.store m) ∧
      (event = .dbPeerOp → X.ndebug = true ∨ ∀ addr wanted,
        d.toDb.head? = some (.get addr wanted) → ∃ h ∈ wanted, h ∈ Piac.hashes X d.store.db) ∧
      ∀ cmd, event = .client cmd → X.ndebug = true ∨ cmd.author ≠ [] := by
  cases input with
  | answerP2p msg =>
      rcases harmless with unknown | ⟨m, parses, fair⟩
      · refine ⟨_, .unknown unknown, ?_, nofun, nofun⟩
        rintro m ⟨⟩
        exact nofun
      · refine ⟨_, .answerP2p parses, ?_, nofun, nofun⟩
        rintro m ⟨⟩
        exact sim.p2p ▸ sim.store ▸ fair
  | dbPeerOp =>
      refine ⟨_, .dbPeerOp, nofun, fun _ => harmless.imp_right fun found addr wanted queue => ?_,
        nofun⟩
      have carried := sim.toDb
      cases reqs : d.toDb with
      | nil => rw [reqs] at queue; cases queue
      | cons req rest =>
          rw [reqs] at queue carried
          cases queue
          obtain ⟨frames, _, carries, -, shape⟩ := List.forall₂_cons_right_iff.mp carried
          cases carries
          rw [← sim.store]
          exact found _ _ _ (by rw [shape]; rfl)
  | client cmd =>
      refine ⟨_, .client cmd, nofun, nofun, ?_⟩
      rintro cmd ⟨⟩
      exact harmless
  | bcastPeers => exact ⟨_, .bcastPeers, nofun, nofun, nofun⟩
  | bcastHashes => exact ⟨_, .bcastHashes, nofun, nofun, nofun⟩
  | sendDbRequests => exact ⟨_, .sendDbRequests, nofun, nofun, nofun⟩
  | answerDb => exact ⟨_, .answerDb, nofun, nofun, nofun⟩
  | pass => exact ⟨_, .pass, nofun, nofun, nofun⟩

theorem unharmed_step {p2pPort : Nat} {e e' : Exposed} {d : Daemon} {input : Input X}
    (sim : Simulates e d) (unharmed : Unharmed X d) (harmless : Harmless e input)
    (stepped : e.step X p2pPort input = some e') : ∃ d', Simulates e' d' ∧ Unharmed X d' := by
  obtain ⟨event, means, fair, finds, named⟩ := sim.means harmless
  obtain ⟨d', sends, acted, sim'⟩ := sim.step means stepped
  obtain ⟨-, acts⟩ := act_acts unharmed.mirrors acted
  exact ⟨d', sim', acts.unharmed unharmed fair finds named⟩

/-- **No harmless input ends the daemon.** However the two threads take their turns, in a
run whose inputs are all harmless no exception is thrown and no assertion fails. -/
theorem harmless_runs {p2pPort : Nat} {peers : List Bytes} {db : Database}
    (well : WellStored X db) {inputs : List (Input X)} {e : Exposed}
    (run : Run (Exposed.step X p2pPort) Harmless (.start X peers db) inputs e) :
    e.fault = none := by
  have both : ∃ d, Simulates e d ∧ Unharmed X d := by
    refine @Run.invariant _ _ (Exposed.step X p2pPort) Harmless
      (fun e => ∃ d, Simulates e d ∧ Unharmed X d) _ _ _ run
      ⟨_, simulates_start peers db, .start well peers⟩ ?_
    rintro _ _ _ ⟨d, sim, unharmed⟩ harmless stepped
    exact unharmed_step sim unharmed harmless stepped
  obtain ⟨d, sim, unharmed⟩ := both
  exact sim.fault.trans unharmed.running

/-- It applies when a peer introduces itself and sends an ad. -/
theorem harmless_runs_ad : ∃ inputs e,
    Run (Exposed.step (reference true) 65090) Harmless (.start (reference true) [] []) inputs e ∧
      e.store.myHashes = [Reference.sha256 (Reference.aliceEntry "1")] ∧ e.fault = none := by
  let peer : Frames := PeerMsg.frames (bytes "id") (.peer [localhost 65091])
  let doc : Frames := PeerMsg.frames (bytes "id") (.doc [Reference.aliceEntry "1"])
  let inputs : List (Input (reference true)) :=
    [.bcastPeers, .bcastHashes, .sendDbRequests, .answerP2p peer, .pass,
     .bcastPeers, .bcastHashes, .sendDbRequests, .answerP2p doc, .dbPeerOp]
  have readable : Document.deserialize (reference true) (Reference.aliceEntry "1") ≠ .error .json := by
    have same : entryOf (reference true) Reference.alice (Reference.ad 1) =
        Reference.aliceEntry "1" := by decide +kernel
    obtain ⟨ad, read, -⟩ := deserialize_entryOf (X := reference true) Reference.alice (Reference.ad 1)
    rw [← same, read]
    exact nofun
  have harmless : ∀ e, ∀ input ∈ inputs, Harmless e input := by
    intro e input member
    simp only [inputs, List.mem_cons, List.not_mem_nil, or_false] at member
    rcases member with rfl | rfl | rfl | rfl | rfl | rfl | rfl | rfl | rfl | rfl
    case inr.inr.inr.inl =>
      refine .inr ⟨_, parses_frames _ (by decide), fun a member => ?_⟩
      rw [List.mem_singleton.mp member]
      decide +kernel
    case inr.inr.inr.inr.inr.inr.inr.inr.inl =>
      refine .inr ⟨_, parses_frames _ (by decide), fun d member => ?_, .inl rfl⟩
      rw [List.mem_singleton.mp (List.mem_filter.mp member).1]
      exact readable
    case inr.inr.inr.inr.inr.inr.inr.inr.inr => exact .inl rfl
    all_goals exact trivial
  have run : Run (Exposed.step (reference true) 65090) Harmless (.start (reference true) [] [])
    inputs _ := .computed (by decide +kernel) harmless
  exact ⟨inputs, _, run, by decide +kernel, harmless_runs .nil run⟩

/-- A count that is no number ends the process. -/
theorem malformed_count_fatal : ∃ e,
    Run (Exposed.step (reference true) 65090) (fun _ _ => True) (.start (reference true) [] [])
      [.bcastPeers, .bcastHashes, .sendDbRequests,
        .answerP2p [bytes "id", bytes "PEER", bytes "many"]] e ∧
      e.fault = some (.stoul .invalidArgument) :=
  ⟨_, .computed (by decide +kernel) fun _ _ _ => trivial, by decide +kernel⟩

end Piac
