/-
# Network.Torn — what one daemon reads while another thread writes

The network of `Network.Basic` once more, of daemons whose threads share `my_hashes`
(`Daemon.Shared`). Its letters may count more than they list.

* `view_of_run`: a run in which no rebuild begins between a wait and the looks behind it is one
  of `Network.Basic`.
* `ads_synchronised`: so the databases of a network at rest are the union of what was stored and
  added.
* `torn_never_synchronised`: two daemons, one of which announces one hash and lists none, and
  ends the other.
-/
import Piac.Daemon.Shared
import Piac.Network.Sync

namespace Piac

set_option autoImplicit false

open Piac.Theory.CppString Piac.Theory.Transition Piac.Theory.MessagePassing

universe u

variable {X : Platform} {ι : Type u}

/-! ## Daemons that read what is being rebuilt -/

abbrev SharedNet (ι : Type u) := Net ι Shared Letter

inductive Stir (X : Platform) (ι : Type u) where
  | act (i : ι) (tick : Tick X)
  | deliver (src dst : ι)

def Config.shared (C : Config X ι) : SharedNet ι where
  node i := .start X (C.peers i) (C.db i)
  link _ _ := []

/-- Everything but the arrival of a letter. -/
def Tick.isLocal : Tick X → Bool
  | .receive _ => false
  | _ => true

/-- The step of the network that a step begins. -/
def Stir.label : Stir X ι → Option (Label X ι)
  | .act i tick => tick.event.map (.act i)
  | .deliver src dst => some (.deliver src dst)

/-- The calls and deliveries of a run. -/
def calls (ls : List (Stir X ι)) : List (Label X ι) := ls.filterMap Stir.label

namespace SharedNet

def step [DecidableEq ι] (C : Config X ι) (net : SharedNet ι) : Stir X ι → Option (SharedNet ι)
  | .act i tick =>
      if tick.isLocal then
        ((net.node i).act (C.port i) tick).map fun (s, letters) =>
          net.post i s (route C.address letters)
      else none
  | .deliver src dst =>
      (net.pop src dst).bind fun (letter, rest) =>
        ((net.node dst).act (C.port dst) (.receive letter : Tick X)).map fun (s, letters) =>
          rest.post dst s (route C.address letters)

/-- The daemons as they stand, and what is in flight. -/
def daemons (net : SharedNet ι) : Network ι where
  node i := (net.node i).daemon
  link i j := (net.link i j).map Letter.msg

/-- The network with all that has begun brought to its end. -/
def view (C : Config X ι) (net : SharedNet ι) : Network ι where
  node i := (net.node i).view X
  link i j := (net.link i j).map Letter.msg ++
    route C.address ((net.node i).pending (C.port i)) j

/-- Nothing is read while it is rebuilt, and every letter counts what it lists. -/
structure Steady (net : SharedNet ι) : Prop where
  nodes : ∀ i, (net.node i).Steady
  letters : ∀ i j, ∀ letter ∈ net.link i j, letter.Whole

/-- The step begins no rebuild at a daemon whose p2p thread is between a wait and its last look. -/
def Apart (net : SharedNet ι) : Stir X ι → Prop
  | .act i tick => (net.node i).Apart tick
  | .deliver _ _ => True

instance (net : SharedNet ι) (l : Stir X ι) : Decidable (Apart net l) :=
  match l with
  | .act i tick => inferInstanceAs (Decidable ((net.node i).Apart tick))
  | .deliver _ _ => .isTrue trivial

/-! ## The same run with whole handlers -/

section View

variable {C : Config X ι}

theorem route_append (first second : Sends) (b : ι) :
    route C.address (first ++ second) b = route C.address first b ++ route C.address second b := by
  simp [route]

theorem route_msgs (letters : Letters) (b : ι) :
    (route C.address letters b).map Letter.msg = route C.address letters.msgs b := by
  simp [route, Letters.msgs, List.filter_map, Function.comp_def]

variable [DecidableEq ι]

/-- What a daemon writes, and what it has still to write, is what it has been about to write. -/
theorem view_post {net : SharedNet ι} {i : ι} {s : Shared} {letters : Letters} {sends : Sends}
    (sent : letters.msgs ++ s.pending (C.port i) = (net.node i).pending (C.port i) ++ sends) :
    view C (net.post i s (route C.address letters)) =
      (view C net).post i (s.view X) (route C.address sends) := by
  refine Net.ext (funext fun k => ?_) (funext₂ fun a b => ?_)
  · by_cases here : k = i
    · subst here
      simp [view, Net.post]
    · simp [view, Net.post, here]
  · by_cases here : a = i
    · subst here
      simp only [view, Net.post, if_true, Function.update_self, List.map_append, route_msgs]
      rw [List.append_assoc, ← route_append, sent, route_append, List.append_assoc]
    · simp only [view, Net.post, here, if_false, ne_eq, not_false_eq_true, Function.update_of_ne]

theorem view_pop {net rest : SharedNet ι} {src dst : ι} {letter : Letter}
    (popped : net.pop src dst = some (letter, rest)) :
    (view C net).pop src dst = some (letter.msg, view C rest) ∧ rest.node = net.node ∧
      letter ∈ net.link src dst ∧ ∀ a b, rest.link a b ⊆ net.link a b := by
  unfold Net.pop at popped ⊢
  split at popped
  · cases popped
  rename_i later queue
  cases popped
  have first : (view C net).link src dst = letter.msg :: (later.map Letter.msg ++
      route C.address ((net.node src).pending (C.port src)) dst) := by
    simp [view, queue]
  rw [first]
  refine ⟨congrArg (fun net => some (letter.msg, net)) (Net.ext rfl (funext₂ fun a b => ?_)), rfl,
    by rw [queue]; exact List.mem_cons_self, fun a b => ?_⟩
  · by_cases here : a = src ∧ b = dst
    · obtain ⟨rfl, rfl⟩ := here
      simp [view]
    · simp [view, here]
  · by_cases here : a = src ∧ b = dst
    · obtain ⟨rfl, rfl⟩ := here
      simp [queue]
    · simp [here]

theorem view_stutter {net : SharedNet ι} {i : ι} {s : Shared} {letters : Letters}
    (sent : letters.msgs ++ s.pending (C.port i) = (net.node i).pending (C.port i))
    (same : s.view X = (net.node i).view X) :
    view C (net.post i s (route C.address letters)) = view C net := by
  have silent : letters.msgs ++ s.pending (C.port i) =
      (net.node i).pending (C.port i) ++ ([] : Sends) := by rw [sent, List.append_nil]
  rw [view_post silent, same]
  refine Net.ext (Function.update_eq_self i _) (funext₂ fun a b => ?_)
  simp only [Net.post, route, List.filter_nil, List.map_nil, List.append_nil, ite_self]

theorem Steady.post {net : SharedNet ι} (steady : Steady net) {i : ι} {s : Shared}
    (node : s.Steady) {letters : Letters} (whole : ∀ l ∈ letters, l.2.Whole) :
    Steady (net.post i s (route C.address letters)) := by
  refine ⟨fun k => ?_, fun a b letter member => ?_⟩
  · by_cases here : k = i
    · subst here
      simpa [Net.post] using node
    · simpa [Net.post, here] using steady.nodes k
  · simp only [Net.post] at member
    split at member
    · rcases List.mem_append.mp member with old | new
      · exact steady.letters a b letter old
      · exact whole _ (mem_route.mp new)
    · exact steady.letters a b letter member

/-- **A step is one of `Network.Basic`, or nothing**, as long as no rebuild begins while the p2p
thread of the same daemon looks. -/
theorem step_view {net net' : SharedNet ι} {l : Stir X ι} (steady : Steady net)
    (apart : Apart net l) (stepped : step C net l = some net') :
    Steady net' ∧ match l.label with
      | some l' => Piac.step C (view C net) l' = some (view C net')
      | none => view C net' = view C net := by
  cases l with
  | act i tick =>
      obtain ⟨isLocal, stepped⟩ := Option.ite_none_right_eq_some.mp stepped
      obtain ⟨⟨s, letters⟩, acted, shape⟩ := Option.map_eq_some_iff.mp stepped
      cases shape
      have sized : ∀ letter, tick = .receive letter → letter.Whole := by
        rintro letter rfl
        cases isLocal
      obtain ⟨sends, matches_⟩ := Shared.act_view (steady.nodes i) apart sized acted
      obtain ⟨steady', whole, sent, seen⟩ := matches_
      refine ⟨steady.post steady' whole, ?_⟩
      cases event : tick.event with
      | none =>
          rw [event] at seen
          obtain ⟨same, rfl⟩ := seen
          simp only [Stir.label, event, Option.map_none]
          exact view_stutter (by rw [sent, List.append_nil]) same
      | some e =>
          rw [event] at seen
          have here : e.isLocal = true := by
            cases tick with
            | call event' =>
                cases event
                cases e with
                | answerP2p msg =>
                    obtain ⟨-, called⟩ := Option.ite_none_right_eq_some.mp acted
                    cases called
                | _ => rfl
            | receive letter => cases isLocal
            | look | fill => cases event
          simp only [Stir.label, event, Option.map_some, Piac.step, here, if_true]
          rw [view_post sent]
          exact Option.map_eq_some_iff.mpr ⟨_, seen, rfl⟩
  | deliver src dst =>
      obtain ⟨⟨letter, rest⟩, popped, stepped⟩ := Option.bind_eq_some_iff.mp stepped
      obtain ⟨⟨s, letters⟩, acted, shape⟩ := Option.map_eq_some_iff.mp stepped
      cases shape
      obtain ⟨taken, nodes, member, fewer⟩ := view_pop (C := C) popped
      have sized : letter.Whole := steady.letters src dst letter member
      obtain ⟨sends, matches_⟩ := Shared.act_view (steady.nodes dst) (by trivial)
        (fun _ same => by cases same; exact sized) acted
      obtain ⟨steady', whole, sent, seen⟩ := matches_
      have steadyRest : Steady rest :=
        ⟨fun i => nodes ▸ steady.nodes i, fun a b l old => steady.letters a b l (fewer a b old)⟩
      refine ⟨steadyRest.post steady' whole, ?_⟩
      rw [← nodes] at sent
      simp only [Stir.label, Piac.step]
      rw [view_post sent]
      exact Option.bind_eq_some_iff.mpr ⟨_, taken, Option.map_eq_some_iff.mpr ⟨_, seen, rfl⟩⟩

/-- **A run whose rebuilds keep apart from the looks is a run of whole handlers.** -/
theorem view_of_run {allowed : SharedNet ι → Stir X ι → Prop}
    {allowed' : Network ι → Label X ι → Prop} (apart : ∀ net l, allowed net l → Apart net l)
    (seen : ∀ net l l', allowed net l → l.label = some l' → allowed' (view C net) l')
    {ls : List (Stir X ι)} {net : SharedNet ι} (run : Run (step C) allowed C.shared ls net) :
    Steady net ∧ NetRun C allowed' (calls ls) (view C net) := by
  have start : Steady C.shared := ⟨fun _ => ⟨fun other => absurd rfl other, trivial⟩, nofun⟩
  refine run.simulated (view C) Stir.label start fun t l u steady ok stepped => ?_
  obtain ⟨steady', step⟩ := step_view steady (apart t l ok) stepped
  refine ⟨steady', ?_⟩
  cases here : l.label with
  | none =>
      rw [here] at step
      exact step
  | some l' =>
      rw [here] at step
      exact ⟨seen t l l' ok here, step⟩

end View

/-! ## Networks at rest -/

variable {C : Config X ι}

/-- Clients only add, and only entries that peers accept and store as they are. -/
def Adds (_ : SharedNet ι) (l : Stir X ι) : Prop :=
  ∀ i cmd, l = .act i (.call (.client cmd)) →
    ∃ author docs, cmd = .add author docs ∧ ∀ ad ∈ docs, Canonical X (entryOf X author ad)

/-- No message to a running daemon is in flight or in the hands of one of its handlers, and all
flags are down. -/
structure Resting (net : SharedNet ι) : Prop where
  quiet : Quiescent net.daemons
  reading : ∀ i, Running net.daemons i → (net.node i).reading = .away
  filling : ∀ i, Running net.daemons i → (net.node i).filling = none

/-- Joined by a chain of daemons one of which has the next in its peer list. -/
def Acquainted (C : Config X ι) (net : SharedNet ι) : ι → ι → Prop :=
  Relation.ReflTransGen fun i j => Knows C net.daemons i j ∨ Knows C net.daemons j i

/-- Daemons that a chain joins have the same hashes, which are those that were stored at, or added
to, one of them. -/
def Synchronised (C : Config X ι) (ls : List (Stir X ι)) (net : SharedNet ι) : Prop :=
  ∀ i j, Acquainted C net i j →
    (∀ h, h ∈ hashes X (net.node i).daemon.store.db ↔ h ∈ hashes X (net.node j).daemon.store.db) ∧
    ∀ h, h ∈ hashes X (net.node i).daemon.store.db ↔
      ∃ k, Acquainted C net i k ∧ Contributed C (calls ls) k h

theorem Adds.addsOnly {net : SharedNet ι} {l : Stir X ι} {l' : Label X ι} (adds : Adds net l)
    (begins : l.label = some l') : AddsOnly (view C net) l' := by
  cases l with
  | deliver src dst =>
      cases begins
      exact ⟨by rintro _ _ _ ⟨⟩, by rintro _ _ ⟨⟩⟩
  | act i tick =>
      obtain ⟨event, here, rfl⟩ := Option.map_eq_some_iff.mp begins
      refine ⟨by rintro _ _ _ ⟨⟩, ?_⟩
      rintro j cmd ⟨⟩
      cases tick with
      | call event =>
          cases here
          exact adds i cmd rfl
      | receive letter | look | fill => cases here

/-- At rest nothing is left to be brought to an end. -/
theorem Resting.view_eq {net : SharedNet ι} (rest : Resting net)
    (running : ∀ i, Running net.daemons i) : view C net = net.daemons := by
  refine Net.ext (funext fun i => ?_) (funext₂ fun i j => ?_)
  · exact Shared.view_idle (rest.reading i (running i)) (rest.filling i (running i))
  · simp only [view, daemons, Shared.pending_away (rest.reading i (running i)), route,
      List.filter_nil, List.map_nil, List.append_nil]

end SharedNet

open SharedNet in
/-- **Ad synchronisation reaches the union** in every run in which no rebuild of `my_hashes` begins
between a wait of the p2p thread and the last look behind it, in a Release build, without restarts,
with clients that only add and with entries that peers accept and store as they are: whenever the
network is at rest, any two daemons of a chain hold the same hashes, and these are the hashes that
were stored at, or added to, the daemons that a chain joins with them. -/
theorem ads_synchronised [DecidableEq ι] {C : Config X ι} (release : X.ndebug = true)
    (canonical : ∀ i, ∀ doc ∈ C.db i, Canonical X doc.data) {ls : List (Stir X ι)}
    {net : SharedNet ι}
    (run : Run (SharedNet.step C) (fun net l => Adds net l ∧ Apart net l) C.shared ls net)
    (rest : Resting net) : Synchronised C ls net := by
  have seen : NetRun C AddsOnly (calls ls) (view C net) :=
    (view_of_run (fun _ _ ok => ok.2) (fun _ _ _ ok begins => ok.1.addsOnly begins) run).2
  have running : ∀ i, Running net.daemons i := fun i => by
    have goesOn : ((view C net).node i).fault = none :=
      (synced_of_run release canonical seen).running i
    simpa [view, Running, daemons] using goesOn
  rw [rest.view_eq running] at seen
  -- as all daemons run, each chain is one of running daemons
  have chain : ∀ i j, Acquainted C net i j ↔ Chain C net.daemons i j := fun i j =>
    ⟨fun joined => joined.lift id fun a b known => ⟨running a, running b, known⟩,
      fun joined => joined.lift id fun _ _ linked => linked.2.2⟩
  intro i j joined
  simp only [chain] at joined ⊢
  exact quiet_synchronised release canonical seen rest.quiet joined

/-! ## Two daemons -/

/-- A daemon's way to its poll, with so many looks at the set for its broadcast. -/
def way (i : ι) (looks : Nat) : List (Stir X ι) :=
  [.act i (.call .bcastPeers), .act i (.call .bcastHashes)] ++ .replicate looks (.act i .look) ++
    [.act i (.call .sendDbRequests)]

/-- An answer to a message of the daemon `src` that takes so many looks. -/
def answered (src i : ι) (looks : Nat) : List (Stir X ι) :=
  .deliver src i :: .replicate looks (.act i .look) ++ [.act i (.call .pass)]

/-- A client adds an ad of `alice`. -/
def adds (i : ι) (id : Int32) : Stir (reference true) ι :=
  .act i (.call (.client (.add Reference.alice [Reference.ad id])))

/-- The rebuild after that, of so many hashes, and its note. -/
def fills (i : ι) (hashes : Nat) : List (Stir X ι) := .replicate (hashes + 1) (.act i .fill)

/-- The daemon `j` greets `i`; an ad that a client has added at `i` goes to `j`. -/
def sharing (i j : ι) : List (Stir (reference true) ι) :=
  [adds i 1] ++ fills i 1 ++ way j 3 ++ way i 1 ++ [.act i (.call .answerDb)] ++ way i 1 ++
    -- PEER and HASH of `j`, PEER and HASH of `i`
    answered j i 0 ++ way i 4 ++ answered j i 1 ++ way i 0 ++ answered i j 0 ++ way j 0 ++
    answered i j 2 ++ way j 0 ++
    -- REQ, GET and PUT, DOC, INS and NEW, and the HASH that follows
    answered j i 0 ++ way i 0 ++ [.act i (.call .dbPeerOp), .act i (.call .answerDb)] ++ way i 0 ++
    answered i j 2 ++ way j 0 ++ [.act j (.call .dbPeerOp)] ++ fills j 1 ++
    [.act j (.call .answerDb)] ++ way j 4 ++ answered j i 2 ++ way i 0

/-- A step that is no command of a client. -/
def Stir.noCommand : Stir X ι → Bool
  | .act _ (.call (.client _)) => false
  | _ => true

theorem adds_of_noCommand {l : Stir X ι} (plain : l.noCommand = true) (net : SharedNet ι) :
    SharedNet.Adds net l := by
  rintro i cmd rfl
  cases plain

theorem adds_adds (i : Fin 2) (id : Int32) (net : SharedNet (Fin 2)) :
    SharedNet.Adds net (adds i id) := by
  rintro j cmd ⟨⟩
  refine ⟨_, _, rfl, fun ad member => ?_⟩
  rw [List.mem_singleton.mp member]
  exact canonical_entryOf rfl (by decide)

open SharedNet in
/-- The ad of the first daemon's client is at the second. -/
theorem ads_synchronised_pair : ∃ ls net,
    Run (SharedNet.step (pair true)) (fun net l => Adds net l ∧ Apart net l) (pair true).shared ls
      net ∧ Resting net ∧
    Reference.sha256 (Reference.aliceEntry "1") ∈ hashes (reference true)
      (net.node 1).daemon.store.db := by
  let net := (exec (guarded (SharedNet.step (pair true)) Apart) (pair true).shared (sharing 0 1)).get
    (by decide +kernel)
  have apart : Run (SharedNet.step (pair true)) Apart (pair true).shared (sharing 0 1) net := .checked _
  have others : ∀ l ∈ (sharing (0 : Fin 2) 1).tail, l.noCommand = true := by decide +kernel
  have run := apart.both fun net l (member : l ∈ sharing 0 1) => show Adds net l by
    rcases List.mem_cons.mp member with rfl | later
    · exact adds_adds 0 1 net
    · exact adds_of_noCommand (others l later) net
  have rest : Resting net := {
    quiet := {
      links := by decide +kernel
      toDb := by decide +kernel
      toP2p := by decide +kernel
      peersFlag := by decide +kernel
      hashesFlag := by decide +kernel
      requestsFlag := by decide +kernel }
    reading := by decide +kernel
    filling := by decide +kernel }
  have joined : Acquainted (pair true) net 0 1 := .single (by decide +kernel)
  have same := (ads_synchronised rfl (fun _ _ member => absurd member List.not_mem_nil) run rest
    0 1 joined).1
  exact ⟨sharing 0 1, net, run, rest, (same _).mp (by decide +kernel)⟩

/-- The daemon `j` has one hash and reads the size of the set for its broadcast. -/
def sized (j : ι) : List (Stir (reference true) ι) :=
  fills j 1 ++ [.act j (.call .bcastPeers), .act j (.call .bcastHashes), .act j .look]

/-- It goes over a set that has been cleared, tells `i` of one hash and names none, and fills the
set again. The daemon `i` looks for the hash. -/
def unlisted (i j : ι) : List (Stir (reference true) ι) :=
  [.act j .look, .act j .look, .act j (.call .sendDbRequests)] ++ fills j 2 ++
    [.act j (.call .answerDb)] ++ way j 5 ++ [.act j (.call .answerDb)] ++ way j 5 ++
    way i 1 ++ answered j i 0 ++ way i 3 ++ [.deliver j i, .act i .look] ++
    answered i j 0 ++ way j 0 ++ answered i j 1 ++ way j 0

open SharedNet in
/-- A client adds a second ad in the middle of a broadcast: the daemon that is told of it is ended,
and has neither. -/
theorem torn_never_synchronised : ∃ ls net,
    Run (SharedNet.step (pair true)) Adds (pair true).shared ls net ∧ Resting net ∧
      ¬ Synchronised (pair true) ls net ∧
      (net.node 0).daemon.fault = some .pastLastFrame := by
  let ls : List (Stir (reference true) (Fin 2)) :=
    adds 1 1 :: (sized 1 ++ adds 1 2 :: unlisted 0 1)
  let net := (exec (SharedNet.step (pair true)) (pair true).shared ls).get (by decide +kernel)
  have run : Run (SharedNet.step (pair true)) Adds (pair true).shared ls net := by
    refine .computed _ fun net l member => ?_
    have others : ∀ l ∈ sized (1 : Fin 2) ++ unlisted 0 1, l.noCommand = true := by decide +kernel
    simp only [ls, List.mem_cons, List.mem_append] at member others
    rcases member with rfl | early | rfl | late
    · exact adds_adds 1 1 net
    · exact adds_of_noCommand (others l (.inl early)) net
    · exact adds_adds 1 2 net
    · exact adds_of_noCommand (others l (.inr late)) net
  have rest : Resting net := {
    quiet := {
      links := by decide +kernel
      toDb := by decide +kernel
      toP2p := by decide +kernel
      peersFlag := by decide +kernel
      hashesFlag := by decide +kernel
      requestsFlag := by decide +kernel }
    reading := by decide +kernel
    filling := by decide +kernel }
  have joined : Acquainted (pair true) net 0 1 := .single (by decide +kernel)
  refine ⟨ls, net, run, rest, fun synchronised => ?_, by decide +kernel⟩
  have same := (synchronised 0 1 joined).1 (Reference.sha256 (Reference.aliceEntry "1"))
  have missing : Reference.sha256 (Reference.aliceEntry "1") ∉
      hashes (reference true) (net.node 0).daemon.store.db := by decide +kernel
  exact missing (same.mpr (by decide +kernel))

end Piac
