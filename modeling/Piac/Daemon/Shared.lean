/-
# Daemon.Shared — `my_hashes` read while it is rebuilt

`Daemon.Loop` takes one call of a handler as one step. The handlers of the p2p thread that use
`my_hashes` wait for `g_hashes_access` under `g_hashes_mtx` and let go of the mutex before they
look: `p2p_bcast_hashes` takes the size and the elements anew for each peer, and
`p2p_answer_p2p` looks up one hash after the other. The db thread clears the set and fills it
again in the meantime. Here each look and each insertion is a step of its own, and a HASH is
written with the count that was read before its elements (`Letter`).

A loop over the set is at a place in it: its next element is the one that is there when it gets
to it. What happens to an iterator of a set that is cleared is not looked into any further.

* `Shared.view`: the daemon of `Daemon.Loop`, with what has begun brought to its end.
* `act_view`: a step is a call of a handler on that daemon, or nothing to it, as long as no
  rebuild begins between a wait and the end of the looks that follow it.
* `Daemon.Handshake`: a wait is over here when the mutex, the flag and the condition let it be.
* `Daemon.Overlap`: what becomes of a peer that is told otherwise.
-/
import Piac.Daemon.Threads

namespace Piac

set_option autoImplicit false

open Piac.Theory.CppString Piac.Theory.Transition

variable {X : Platform}

/-! ## Messages with a count -/

/-- How many addresses, hashes or entries a message lists. -/
def PeerMsg.size : PeerMsg → Nat
  | .peer addrs => addrs.length
  | .hash _ hashes => hashes.length
  | .req _ hashes => hashes.length
  | .doc docs => docs.length

/-- A message to a peer, with the count in front of what it lists. -/
structure Letter where
  count : Nat
  msg : PeerMsg
  deriving DecidableEq

/-- A message that counts what it lists. -/
def Letter.of (msg : PeerMsg) : Letter := ⟨msg.size, msg⟩

def Letter.Whole (letter : Letter) : Prop := letter.count = letter.msg.size

theorem Letter.whole_of (msg : PeerMsg) : (Letter.of msg).Whole := rfl

/-- Letters with the address of the socket they are written to. -/
abbrev Letters := List (Bytes × Letter)

/-- What letters say, whatever they count. -/
def Letters.msgs (letters : Letters) : Sends := letters.map fun l => (l.1, l.2.msg)

def Letters.of (sends : Sends) : Letters := sends.map fun s => (s.1, .of s.2)

@[simp] theorem Letters.msgs_of (sends : Sends) : (Letters.of sends).msgs = sends := by
  simp [Letters.msgs, Letters.of, Letter.of, Function.comp_def]

/-! ## The two threads at the set -/

/-- Where the p2p thread is after a wait for `g_hashes_access`. -/
inductive Reading where
  | away
  /-- `p2p_bcast_hashes` before the next peer. -/
  | telling (peers : List Bytes)
  /-- It has read the size for the peer at `addr`, and has come so far in the set. -/
  | writing (addr : Bytes) (peers : List Bytes) (count : Nat) (told : List Bytes)
  /-- The loop of the HASH branch, with its `num` and the frames that are left. -/
  | looking (sender : Bytes) (num : Nat) (hashes : List Bytes)
  /-- The loop of the DOC branch, with its `docs_to_insert`. -/
  | sorting (docs kept : List Bytes)
  deriving DecidableEq

/-- `db_update_hashes` after it has cleared the set: what is still to be inserted, and what the
handler that called it will send. -/
structure Filling where
  rest : List Bytes
  notes : List DbRep
  deriving DecidableEq

structure Shared where
  daemon : Daemon
  reading : Reading
  filling : Option Filling
  deriving DecidableEq

variable (X) in
/-- Both loops at their start, after the first wait. -/
def Shared.start (peers : List Bytes) (db : Database) : Shared := ⟨.start X peers db, .away, none⟩

/-- A step of one of the threads. -/
inductive Tick (X : Platform) where
  /-- A call of a handler, which ends with it unless it looks at the set or rebuilds it. -/
  | call (event : Event X)
  | receive (letter : Letter)
  /-- The next look of the p2p thread, or the end of its loop. -/
  | look
  /-- The next insertion of the db thread, or its note. -/
  | fill

namespace Shared

/-- The db thread after a call: one that sends a note has cleared the set. -/
def cleared (s : Shared) (d : Daemon) : Shared :=
  let notes := d.toP2p.drop s.daemon.toP2p.length
  if notes = [.new] then
    { s with daemon := { d with store := { d.store with myHashes := [] }, toP2p := s.daemon.toP2p }
             filling := some ⟨d.store.myHashes, notes⟩ }
  else { s with daemon := d }

def call (p2pPort : Nat) (s : Shared) : Event X → Option (Shared × Letters)
  | .client cmd =>
      if s.filling = none then
        (s.daemon.act p2pPort (.client cmd)).map fun (d, _) => (s.cleared d, [])
      else none
  | .dbPeerOp =>
      if s.filling = none then
        (s.daemon.act p2pPort (.dbPeerOp : Event X)).map fun (d, _) => (s.cleared d, [])
      else none
  | .answerP2p _ => none
  | .bcastHashes =>
      if s.reading = .away then
        if s.daemon.p2p.toBcastHashes then
          -- the wait ends when the db thread does not hold the mutex
          if s.daemon.phase = .bcastHashes ∧ s.filling = none then
            some ({ s with reading := .telling s.daemon.p2p.myPeers }, [])
          else none
        else
          (s.daemon.act p2pPort (.bcastHashes : Event X)).map fun (d, sends) =>
            ({ s with daemon := d }, .of sends)
      else none
  | event =>
      if s.reading = .away then
        (s.daemon.act p2pPort event).map fun (d, sends) => ({ s with daemon := d }, .of sends)
      else none

/-- The db thread is not at the set, and the p2p thread at its poll. -/
def mayWait (s : Shared) : Bool := s.daemon.phase = .poll && s.filling = none

variable (X) in
/-- `p2p_answer_p2p` up to its first look. -/
def receive (p2pPort : Nat) (s : Shared) (letter : Letter) : Option (Shared × Letters) :=
  if s.reading = .away then
    match letter.msg with
    | .hash sender hashes =>
        if s.mayWait then some ({ s with reading := .looking sender letter.count hashes }, [])
        else none
    | .doc docs =>
        if s.mayWait then
          match X.assert .doc (docs ≠ []) with
          | .ok _ => some ({ s with reading := .sorting docs [] }, [])
          | .error f => some ({ s with daemon := { s.daemon with fault := some f } }, [])
        else none
    | msg =>
        (s.daemon.act p2pPort (.answerP2p msg : Event X)).map fun (d, sends) =>
          ({ s with daemon := d }, .of sends)
  else none

variable (X) in
def look (p2pPort : Nat) (s : Shared) : Option (Shared × Letters) :=
  let d := s.daemon
  let myHashes := d.store.myHashes
  match s.reading with
  | .away => none
  | .telling [] =>
      some ({ s with reading := .away
                     daemon := { d with p2p := { d.p2p with toBcastHashes := false }
                                        phase := .sendDbRequests } }, [])
  | .telling (addr :: peers) =>
      some ({ s with reading := .writing addr peers myHashes.length [] }, [])
  | .writing addr peers count told =>
      match myHashes[told.length]? with
      | some hash => some ({ s with reading := .writing addr peers count (told ++ [hash]) }, [])
      | none =>
          some ({ s with reading := .telling peers },
            [(addr, ⟨count, .hash (localhost p2pPort) told⟩)])
  | .looking _ 0 _ => some ({ s with reading := .away, daemon := { d with phase := .answered } }, [])
  | .looking _ (_ + 1) [] => some ({ s with daemon := { d with fault := some .pastLastFrame } }, [])
  | .looking sender (num + 1) (hash :: hashes) =>
      some ({ s with reading := .looking sender num hashes
                     daemon := { d with p2p := noteHash myHashes sender d.p2p hash } }, [])
  | .sorting [] kept =>
      some ({ s with reading := .away
                     daemon := { d with phase := .answered, toDb := d.toDb ++ [.ins kept] } }, [])
  | .sorting (doc :: docs) kept =>
      some ({ s with reading := .sorting docs (kept ++ unknownDocs X myHashes [doc]) }, [])

def fill (s : Shared) : Option (Shared × Letters) :=
  let d := s.daemon
  match s.filling with
  | none => none
  | some ⟨hash :: rest, notes⟩ =>
      some ({ s with filling := some ⟨rest, notes⟩
                     daemon := { d with store := { d.store with
                       myHashes := d.store.myHashes ++ [hash] } } }, [])
  | some ⟨[], notes⟩ =>
      some ({ s with filling := none, daemon := { d with toP2p := d.toP2p ++ notes } }, [])

/-- A step of a running daemon, and what it writes to peer sockets. -/
def act (p2pPort : Nat) (s : Shared) (tick : Tick X) : Option (Shared × Letters) :=
  if s.daemon.fault = none then
    match tick with
    | .call event => s.call p2pPort event
    | .receive letter => s.receive X p2pPort letter
    | .look => s.look X p2pPort
    | .fill => s.fill
  else none

/-- This call goes on to rebuild the set, if it returns. -/
def rebuilds (s : Shared) : Event X → Bool
  | .client _ => true
  | .dbPeerOp =>
      match s.daemon.toDb with
      | .ins docs :: _ => unknownDocs X s.daemon.store.myHashes docs ≠ []
      | _ => false
  | _ => false

/-- The step does not begin a rebuild while the p2p thread is between a wait and its last look. -/
def Apart (s : Shared) : Tick X → Prop
  | .call event => s.rebuilds event = true → s.reading = .away
  | _ => True

instance (s : Shared) (tick : Tick X) : Decidable (s.Apart tick) :=
  match tick with
  | .call _ => inferInstanceAs (Decidable (_ → _))
  | .receive _ | .look | .fill => .isTrue trivial

end Shared

/-! ## The daemon whose calls are steps -/

namespace Reading

variable (X) in
/-- The daemon when the handler is done, if the set stays as it is. -/
def done (d : Daemon) : Reading → Daemon
  | .away => d
  | .telling _ | .writing .. =>
      { d with p2p := { d.p2p with toBcastHashes := false }, phase := .sendDbRequests }
  | .looking sender _ hashes =>
      { d with p2p := hashes.foldl (noteHash d.store.myHashes sender) d.p2p, phase := .answered }
  | .sorting docs kept =>
      { d with phase := .answered
               toDb := d.toDb ++ [.ins (kept ++ unknownDocs X d.store.myHashes docs)] }

/-- What a broadcast has still to send. -/
def sends (p2pPort : Nat) (myHashes : List Bytes) : Reading → Sends
  | .telling peers => peers.map fun addr => (addr, .hash (localhost p2pPort) myHashes)
  | .writing addr peers _ _ =>
      (addr :: peers).map fun addr => (addr, .hash (localhost p2pPort) myHashes)
  | _ => []

/-- What has been read so far is so of the set as it is. -/
def Sound (myHashes : List Bytes) : Reading → Prop
  | .writing _ _ count told => count = myHashes.length ∧ told <+: myHashes
  | .looking _ num hashes => num = hashes.length
  | _ => True

end Reading

/-- The daemon when a rebuild is over and its note is sent. -/
def Filling.done (d : Daemon) : Option Filling → Daemon
  | none => d
  | some ⟨rest, notes⟩ =>
      { d with store := { d.store with myHashes := d.store.myHashes ++ rest }
               toP2p := d.toP2p ++ notes }

namespace Shared

variable (X) in
/-- The daemon with what both threads have begun brought to its end. -/
def view (s : Shared) : Daemon := s.reading.done X (Filling.done s.daemon s.filling)

/-- What the p2p thread is about to send. -/
def pending (p2pPort : Nat) (s : Shared) : Sends := s.reading.sends p2pPort s.daemon.store.myHashes

/-- The set is not rebuilt while the p2p thread reads it. -/
structure Steady (s : Shared) : Prop where
  alone : s.reading ≠ .away → s.filling = none
  sound : s.reading.Sound s.daemon.store.myHashes

theorem view_away {s : Shared} (away : s.reading = .away) :
    s.view X = Filling.done s.daemon s.filling := by
  rw [view, away, Reading.done]

theorem view_whole {s : Shared} (whole : s.filling = none) :
    s.view X = s.reading.done X s.daemon := by
  rw [view, whole, Filling.done]

theorem view_idle {s : Shared} (away : s.reading = .away) (whole : s.filling = none) :
    s.view X = s.daemon := by
  rw [view_away away, whole, Filling.done]

theorem pending_away {p2pPort : Nat} {s : Shared} (away : s.reading = .away) :
    s.pending p2pPort = [] := by
  rw [pending, away]
  rfl

@[simp] theorem view_fault (s : Shared) : (s.view X).fault = s.daemon.fault := by
  have filled : (Filling.done s.daemon s.filling).fault = s.daemon.fault := by
    cases s.filling <;> rfl
  rw [← filled, view]
  cases s.reading <;> rfl

end Shared

/-! ## Calls that leave the set alone -/

namespace Daemon

variable {p2pPort : Nat} {d d' : Daemon} {sends : Sends}

/-- The calls of the p2p thread that do not look at the set. -/
def Blind (d : Daemon) : Event X → Prop
  | .bcastHashes => d.p2p.toBcastHashes = false
  | .answerP2p (.hash _ _) | .answerP2p (.doc _) => False
  | event => event.ofP2p = true

theorem Blind.ofP2p {event : Event X} (blind : d.Blind event) : event.ofP2p = true := by
  cases event with
  | answerP2p msg => rfl
  | bcastHashes => rfl
  | _ => exact blind

/-- What is in the set does not matter to them. -/
theorem act_myHashes {event : Event X} (blind : d.Blind event) (myHashes : List Bytes)
    (acted : d.act p2pPort event = some (d', sends)) :
    { d with store := { d.store with myHashes } }.act p2pPort event =
      some ({ d' with store := { d'.store with myHashes } }, sends) := by
  obtain ⟨running, acted⟩ := act_running acted
  refine Option.ite_none_right_eq_some.mpr ⟨running, ?_⟩
  cases event with
  | bcastPeers =>
      obtain ⟨here, shape⟩ := Option.ite_none_right_eq_some.mp acted
      refine Option.ite_none_right_eq_some.mpr ⟨here, ?_⟩
      dsimp only
      generalize p2pBcastPeers p2pPort d.p2p = result at shape ⊢
      cases shape
      rfl
  | bcastHashes =>
      have silent : ∀ myHashes, p2pBcastHashes p2pPort myHashes d.p2p = (d.p2p, []) := fun _ => by
        have down : d.p2p.toBcastHashes = false := blind
        rw [p2pBcastHashes, if_neg (by simp [down])]
      simp only [actRunning, silent] at acted ⊢
      obtain ⟨here, shape⟩ := Option.ite_none_right_eq_some.mp acted
      refine Option.ite_none_right_eq_some.mpr ⟨here, ?_⟩
      cases shape
      rfl
  | sendDbRequests =>
      obtain ⟨here, shape⟩ := Option.ite_none_right_eq_some.mp acted
      refine Option.ite_none_right_eq_some.mpr ⟨here, ?_⟩
      dsimp only
      generalize p2pSendDbRequests p2pPort d.p2p = result at shape ⊢
      cases result <;> (cases shape; rfl)
  | answerP2p msg =>
      obtain ⟨here, shape⟩ := Option.ite_none_right_eq_some.mp acted
      refine Option.ite_none_right_eq_some.mpr ⟨here, ?_⟩
      cases msg with
      | hash sender hashes => exact absurd blind id
      | doc docs => exact absurd blind id
      | peer addrs =>
          dsimp only [p2pAnswerP2p] at shape ⊢
          generalize addrs.foldlM (learnPeer X p2pPort) d.p2p = result at shape ⊢
          cases result <;> (cases shape; rfl)
      | req addr hashes =>
          dsimp only [p2pAnswerP2p] at shape ⊢
          generalize X.assert .req (hashes ≠ []) = result at shape ⊢
          cases result <;> (cases shape; rfl)
  | answerDb =>
      obtain ⟨here, shape⟩ := Option.ite_none_right_eq_some.mp acted
      refine Option.ite_none_right_eq_some.mpr ⟨here, ?_⟩
      split at shape
      · cases shape
      rename_i rep rest queue
      simp only [queue]
      cases result : p2pAnswerDb X d.p2p rep <;>
        (simp only [settle, result] at shape ⊢; cases shape; rfl)
  | pass =>
      obtain ⟨here, shape⟩ := Option.ite_none_right_eq_some.mp acted
      refine Option.ite_none_right_eq_some.mpr ⟨here, ?_⟩
      cases shape
      rfl
  | dbPeerOp => cases blind
  | client cmd => cases blind

/-- Calls of the p2p thread leave the store alone. -/
theorem act_store {event : Event X} (ofP2p : event.ofP2p = true)
    (acted : d.act p2pPort event = some (d', sends)) : d'.store = d.store := by
  obtain ⟨-, acted⟩ := act_running acted
  cases event with
  | bcastPeers | bcastHashes | pass =>
      obtain ⟨-, shape⟩ := Option.ite_none_right_eq_some.mp acted
      cases shape
      rfl
  | sendDbRequests =>
      obtain ⟨-, shape⟩ := Option.ite_none_right_eq_some.mp acted
      rcases settle_cases (Option.some.inj shape) with ⟨_, -, shape⟩ | ⟨f, rfl⟩
      · cases shape
        rfl
      · rfl
  | answerP2p msg =>
      obtain ⟨-, shape⟩ := Option.ite_none_right_eq_some.mp acted
      rcases settle_cases (Option.some.inj shape) with ⟨_, -, shape⟩ | ⟨f, rfl⟩
      · cases shape
        rfl
      · rfl
  | answerDb =>
      obtain ⟨-, shape⟩ := Option.ite_none_right_eq_some.mp acted
      split at shape
      · cases shape
      · rcases settle_cases (Option.some.inj shape) with ⟨_, -, shape⟩ | ⟨f, rfl⟩
        · cases shape
          rfl
        · rfl
  | dbPeerOp | client cmd => cases ofP2p

/-- Calls of the db thread leave the p2p thread alone, and send nothing to peers. -/
theorem act_ofDb {event : Event X} (ofDb : event.ofP2p = false)
    (acted : d.act p2pPort event = some (d', sends)) : d'.p2p = d.p2p ∧ sends = [] ∧
      ∀ p2p phase, { d with p2p, phase }.act p2pPort event = some ({ d' with p2p, phase }, sends) := by
  obtain ⟨running, acted⟩ := act_running acted
  cases event with
  | client cmd =>
      simp only [actRunning] at acted
      cases result : clientOp X d.store cmd <;>
        (simp only [settle, result] at acted
         cases acted
         exact ⟨rfl, rfl, fun _ _ => by simp [act, actRunning, settle, result, running]⟩)
  | dbPeerOp =>
      simp only [actRunning] at acted
      split at acted
      · cases acted
      rename_i req rest queue
      cases result : Piac.dbPeerOp X d.store req <;>
        (simp only [settle, result] at acted
         cases acted
         exact ⟨rfl, rfl, fun _ _ => by simp [act, actRunning, settle, queue, result, running]⟩)
  | bcastPeers | bcastHashes | sendDbRequests | answerP2p msg | answerDb | pass => cases ofDb

end Daemon

namespace Reading

variable {p2pPort : Nat} {d d' : Daemon} {sends : Sends}

/-- A call of the db thread that leaves the set as it is may come at any look. -/
theorem act_done (reading : Reading) {event : Event X} (ofDb : event.ofP2p = false)
    (acted : d.act p2pPort event = some (d', sends))
    (same : reading ≠ .away → d'.store.myHashes = d.store.myHashes) :
    (reading.done X d).act p2pPort event = some (reading.done X d', sends) := by
  obtain ⟨p2p, rfl, moved⟩ := Daemon.act_ofDb ofDb acted
  cases reading with
  | away => exact acted
  | telling peers | writing addr peers count told =>
      rw [done, done, p2p]
      exact moved _ _
  | looking sender num hashes =>
      rw [done, done, p2p, same nofun]
      exact moved _ _
  | sorting docs kept =>
      rw [done, done, same nofun]
      have asked := Daemon.act_toDb ofDb [.ins (kept ++ unknownDocs X d.store.myHashes docs)] acted
      have turned := (Daemon.act_ofDb ofDb asked).2.2 d.p2p .answered
      rw [turned, ← p2p]

end Reading

namespace Filling

variable {p2pPort : Nat} {d d' : Daemon} {sends : Sends}

/-- A call of the p2p thread that does not look at the set may come at any insertion. -/
theorem act_done (filling : Option Filling) {event : Event X} (blind : d.Blind event)
    (acted : d.act p2pPort event = some (d', sends)) :
    (done d filling).act p2pPort event = some (done d' filling, sends) := by
  cases filling with
  | none => exact acted
  | some f =>
      have store := Daemon.act_store blind.ofP2p acted
      have noted := Daemon.act_toP2p blind.ofP2p f.notes acted
      have moved := Daemon.act_myHashes (d := { d with toP2p := d.toP2p ++ f.notes }) ?_
        (d.store.myHashes ++ f.rest) noted
      · rw [done, done, store]
        rw [store] at moved
        exact moved
      · cases event with
        | answerP2p msg => cases msg <;> exact blind
        | _ => exact blind

end Filling

/-! ## Each step is a call, or nothing -/

/-- The call that a step begins. -/
def Tick.event : Tick X → Option (Event X)
  | .call event => some event
  | .receive letter => some (.answerP2p letter.msg)
  | .look | .fill => none

namespace Shared

variable {p2pPort : Nat} {s s' : Shared} {d : Daemon} {letters : Letters} {sends : Sends}

/-- What a step can be. -/
inductive Ticks (p2pPort : Nat) (s : Shared) : Tick X → Shared → Letters → Prop where
  | db {event : Event X} {d : Daemon} {sends : Sends} : event.ofP2p = false → s.filling = none →
      s.daemon.act p2pPort event = some (d, sends) → Ticks p2pPort s (.call event) (s.cleared d) []
  /-- A handler of the p2p thread that does not look at the set. -/
  | blind {tick : Tick X} {event : Event X} {d : Daemon} {sends : Sends} :
      tick.event = some event → s.reading = .away → s.daemon.Blind event →
      s.daemon.act p2pPort event = some (d, sends) →
      Ticks p2pPort s tick { s with daemon := d } (.of sends)
  | tells : s.reading = .away → s.filling = none → s.daemon.phase = .bcastHashes →
      s.daemon.p2p.toBcastHashes = true →
      Ticks p2pPort s (.call .bcastHashes)
        { s with reading := .telling s.daemon.p2p.myPeers } []
  | looks {count : Nat} {sender : Bytes} {hashes : List Bytes} : s.reading = .away →
      s.filling = none → s.daemon.phase = .poll →
      Ticks p2pPort s (.receive ⟨count, .hash sender hashes⟩)
        { s with reading := .looking sender count hashes } []
  | sorts {count : Nat} {docs : List Bytes} : s.reading = .away → s.filling = none →
      s.daemon.phase = .poll → X.assert .doc (docs ≠ []) = .ok () →
      Ticks p2pPort s (.receive ⟨count, .doc docs⟩) { s with reading := .sorting docs [] } []
  | refuses {count : Nat} {docs : List Bytes} {f : Fault} : s.reading = .away →
      s.filling = none → s.daemon.phase = .poll → X.assert .doc (docs ≠ []) = .error f →
      Ticks p2pPort s (.receive ⟨count, .doc docs⟩)
        { s with daemon := { s.daemon with fault := some f } } []
  | look {s' : Shared} {letters : Letters} : s.look X p2pPort = some (s', letters) →
      Ticks p2pPort s .look s' letters
  | fill {s' : Shared} {letters : Letters} : s.fill = some (s', letters) →
      Ticks p2pPort s .fill s' letters

theorem mayWait_iff : s.mayWait = true ↔ s.daemon.phase = .poll ∧ s.filling = none := by
  simp [mayWait]

theorem act_cases {tick : Tick X} (acted : s.act p2pPort tick = some (s', letters)) :
    s.daemon.fault = none ∧ Ticks p2pPort s tick s' letters := by
  obtain ⟨running, acted⟩ := Option.ite_none_right_eq_some.mp acted
  refine ⟨running, ?_⟩
  cases tick with
  | call event =>
      cases event with
      | client cmd | dbPeerOp =>
          obtain ⟨whole, called⟩ := Option.ite_none_right_eq_some.mp acted
          obtain ⟨⟨d, sends⟩, done, shape⟩ := Option.map_eq_some_iff.mp called
          cases shape
          exact .db rfl whole done
      | answerP2p msg => cases acted
      | bcastHashes =>
          obtain ⟨away, called⟩ := Option.ite_none_right_eq_some.mp acted
          split at called
          · rename_i flag
            obtain ⟨⟨phase, whole⟩, shape⟩ := Option.ite_none_right_eq_some.mp called
            cases shape
            exact .tells away whole phase flag
          · rename_i down
            obtain ⟨⟨d, sends⟩, done, shape⟩ := Option.map_eq_some_iff.mp called
            cases shape
            exact .blind rfl away (by simpa [Daemon.Blind] using down) done
      | bcastPeers | sendDbRequests | answerDb | pass =>
          obtain ⟨away, called⟩ := Option.ite_none_right_eq_some.mp acted
          obtain ⟨⟨d, sends⟩, done, shape⟩ := Option.map_eq_some_iff.mp called
          cases shape
          exact .blind rfl away (by rfl) done
  | receive letter =>
      obtain ⟨count, msg⟩ := letter
      obtain ⟨away, taken⟩ := Option.ite_none_right_eq_some.mp acted
      cases msg with
      | peer addrs | req addr hashes =>
          obtain ⟨⟨d, sends⟩, done, shape⟩ := Option.map_eq_some_iff.mp taken
          cases shape
          exact .blind rfl away (by rfl) done
      | hash sender hashes =>
          obtain ⟨waits, shape⟩ := Option.ite_none_right_eq_some.mp taken
          obtain ⟨phase, whole⟩ := mayWait_iff.mp waits
          cases shape
          exact .looks away whole phase
      | doc docs =>
          obtain ⟨waits, taken⟩ := Option.ite_none_right_eq_some.mp taken
          obtain ⟨phase, whole⟩ := mayWait_iff.mp waits
          split at taken
          · cases taken
            exact .sorts away whole phase ‹_›
          · cases taken
            exact .refuses away whole phase ‹_›
  | look => exact .look acted
  | fill => exact .fill acted

/-- What the db thread sends comes behind what it has sent. -/
theorem notes_of_db {event : Event X} (ofDb : event.ofP2p = false)
    (acted : s.daemon.act p2pPort event = some (d, sends)) :
    ∃ notes, d.toP2p = s.daemon.toP2p ++ notes := by
  cases event with
  | client cmd =>
      obtain ⟨-, notes, same, -⟩ := Daemon.act_client acted
      exact ⟨notes, same⟩
  | dbPeerOp =>
      obtain ⟨-, notes, same, -⟩ := Daemon.act_dbPeerOp acted
      exact ⟨notes, same⟩
  | bcastPeers | bcastHashes | sendDbRequests | answerP2p msg | answerDb | pass => cases ofDb

/-- A call of the db thread that does not rebuild the set leaves it alone, and sends no note. -/
theorem kept_of_db {event : Event X} (ofDb : event.ofP2p = false) (keeps : s.rebuilds event = false)
    (acted : s.daemon.act p2pPort event = some (d, sends)) :
    d.store = s.daemon.store ∧ d.toP2p.drop s.daemon.toP2p.length ≠ [.new] := by
  obtain ⟨-, acted⟩ := Daemon.act_running acted
  cases event with
  | client cmd => cases keeps
  | dbPeerOp =>
      simp only [rebuilds] at keeps
      simp only [Daemon.actRunning] at acted
      split at acted
      · cases acted
      rename_i req rest queue
      rw [queue] at keeps
      rcases Daemon.settle_cases (Option.some.inj acted) with ⟨⟨store, reps⟩, done, shape⟩ | ⟨f, rfl⟩
      · cases shape
        cases req with
        | get addr wanted =>
            simp only [Piac.dbPeerOp, bind_eq_ok, pure_eq_ok] at done
            obtain ⟨_, -, docs, -, shape⟩ := done
            cases shape
            simp
        | ins docs =>
            have known : unknownDocs X s.daemon.store.myHashes docs = [] := by simpa using keeps
            simp only [Piac.dbPeerOp, bind_eq_ok, known, if_true] at done
            obtain ⟨_, -, shape⟩ := done
            cases shape
            simp
      · simp
  | bcastPeers | bcastHashes | sendDbRequests | answerP2p msg | answerDb | pass => cases ofDb

theorem cleared_view {event : Event X} (steady : s.Steady) (apart : s.Apart (.call event))
    (ofDb : event.ofP2p = false) (whole : s.filling = none)
    (acted : s.daemon.act p2pPort event = some (d, sends)) :
    (s.cleared d).Steady ∧ (s.cleared d).pending p2pPort = s.pending p2pPort ∧
      (s.view X).act p2pPort event = some ((s.cleared d).view X, []) := by
  obtain ⟨-, rfl, -⟩ := Daemon.act_ofDb ofDb acted
  by_cases away : s.reading = .away
  · obtain ⟨notes, behind⟩ := notes_of_db ofDb acted
    obtain ⟨daemon, reading, filling⟩ := s
    subst away whole
    have idle : (⟨daemon, .away, none⟩ : Shared).view X = daemon := rfl
    rw [idle, acted]
    unfold cleared
    dsimp only
    split
    · refine ⟨⟨fun other => absurd rfl other, trivial⟩, rfl, ?_⟩
      have sent : daemon.toP2p ++ d.toP2p.drop daemon.toP2p.length = d.toP2p :=
        Threads.drop_append_of_prefix ⟨notes, behind⟩
      simp [view, Reading.done, Filling.done, sent]
    · exact ⟨⟨fun other => absurd rfl other, trivial⟩, rfl, rfl⟩
  · have keeps : s.rebuilds event = false :=
      Bool.eq_false_of_not_eq_true fun rebuilds => away (apart rebuilds)
    obtain ⟨store, quiet⟩ := kept_of_db ofDb keeps acted
    have same : s.cleared d = { s with daemon := d } := if_neg quiet
    rw [same]
    refine ⟨⟨fun _ => whole, by rw [store]; exact steady.sound⟩, by rw [pending, pending, store], ?_⟩
    rw [view_whole whole, view_whole (s := { s with daemon := d }) whole]
    exact Reading.act_done s.reading ofDb acted fun _ => by rw [store]

/-- What a step is to the daemon of `Daemon.Loop`: the call that it begins, or nothing. What a
broadcast announces counts as sent when it begins. -/
structure Matches (p2pPort : Nat) (s : Shared) (event : Option (Event X)) (s' : Shared)
    (letters : Letters) (sends : Sends) : Prop where
  steady : s'.Steady
  whole : ∀ l ∈ letters, l.2.Whole
  sent : letters.msgs ++ s'.pending p2pPort = s.pending p2pPort ++ sends
  acted : match event with
    | some event => (s.view X).act p2pPort event = some (s'.view X, sends)
    | none => s'.view X = s.view X ∧ sends = []

theorem whole_of_sends {l : Bytes × Letter} (member : l ∈ Letters.of sends) : l.2.Whole := by
  obtain ⟨_, -, rfl⟩ := List.mem_map.mp member
  exact Letter.whole_of _

theorem blind_view {event : Event X} (away : s.reading = .away) (blind : s.daemon.Blind event)
    (acted : s.daemon.act p2pPort event = some (d, sends)) :
    Matches p2pPort s (some event) { s with daemon := d } (.of sends) sends := by
  obtain ⟨daemon, reading, filling⟩ := s
  subst away
  exact ⟨⟨fun other => absurd rfl other, trivial⟩, fun _ => whole_of_sends,
    by rw [Letters.msgs_of]; exact List.append_nil sends, Filling.act_done filling blind acted⟩

/-- Nothing happens to the daemon at a look: what it reads is what was there at the wait. -/
theorem look_view (steady : s.Steady) (looked : s.look X p2pPort = some (s', letters)) :
    Matches (X := X) p2pPort s none s' letters [] := by
  obtain ⟨d, reading, filling⟩ := s
  obtain ⟨alone, sound⟩ := steady
  cases reading with
  | away => cases looked
  | telling peers =>
      obtain rfl : filling = none := alone nofun
      cases peers with
      | nil =>
          cases looked
          exact ⟨⟨fun _ => rfl, trivial⟩, nofun, rfl, rfl, rfl⟩
      | cons addr peers =>
          cases looked
          exact ⟨⟨fun _ => rfl, rfl, List.nil_prefix⟩, nofun, (List.append_nil _).symm, rfl, rfl⟩
  | writing addr peers count told =>
      obtain rfl : filling = none := alone nofun
      have counted : count = d.store.myHashes.length := sound.1
      have first : told <+: d.store.myHashes := sound.2
      subst counted
      simp only [look] at looked
      split at looked
      · rename_i hash next
        cases looked
        obtain ⟨rest, same⟩ := first
        have longer : told ++ [hash] <+: d.store.myHashes := by
          refine ⟨rest.tail, ?_⟩
          rw [← same, List.getElem?_append_right (Nat.le_refl _), Nat.sub_self] at next
          cases rest with
          | nil => cases next
          | cons h rest =>
              cases next
              rw [← same, List.append_assoc]
              rfl
        exact ⟨⟨fun _ => rfl, rfl, longer⟩, nofun, (List.append_nil _).symm, rfl, rfl⟩
      · rename_i last
        cases looked
        have all : told = d.store.myHashes :=
          first.eq_of_length_le (List.getElem?_eq_none_iff.mp last)
        refine ⟨⟨fun _ => rfl, trivial⟩, fun l member => ?_, ?_, rfl, rfl⟩
        · rw [List.mem_singleton.mp member]
          exact congrArg List.length all.symm
        · simp [Letters.msgs, pending, Reading.sends, all]
  | looking sender num hashes =>
      obtain rfl : filling = none := alone nofun
      obtain rfl : num = hashes.length := sound
      cases hashes with
      | nil =>
          cases looked
          exact ⟨⟨fun _ => rfl, trivial⟩, nofun, rfl, rfl, rfl⟩
      | cons hash hashes =>
          cases looked
          exact ⟨⟨fun _ => rfl, rfl⟩, nofun, rfl, rfl, rfl⟩
  | sorting docs kept =>
      obtain rfl : filling = none := alone nofun
      cases docs with
      | nil =>
          cases looked
          refine ⟨⟨fun _ => rfl, trivial⟩, nofun, rfl, ?_, rfl⟩
          simp [view, Reading.done, Filling.done, unknownDocs]
      | cons doc docs =>
          cases looked
          refine ⟨⟨fun _ => rfl, trivial⟩, nofun, rfl, ?_, rfl⟩
          have split : unknownDocs X d.store.myHashes (doc :: docs) =
              unknownDocs X d.store.myHashes [doc] ++ unknownDocs X d.store.myHashes docs :=
            List.filter_append [doc] docs
          simp only [view, Reading.done, Filling.done, split, List.append_assoc]

theorem fill_view (steady : s.Steady) (filled : s.fill = some (s', letters)) :
    Matches (X := X) p2pPort s none s' letters [] := by
  obtain ⟨d, reading, filling⟩ := s
  cases filling with
  | none => cases filled
  | some f =>
      obtain rfl : reading = .away := by_contra fun other => nomatch steady.alone other
      obtain ⟨rest, notes⟩ := f
      cases rest with
      | nil =>
          cases filled
          exact ⟨⟨fun _ => rfl, trivial⟩, nofun, rfl, by simp [view, Reading.done, Filling.done], rfl⟩
      | cons hash rest =>
          cases filled
          refine ⟨⟨fun other => absurd rfl other, trivial⟩, nofun, rfl, ?_, rfl⟩
          simp [view, Reading.done, Filling.done]

/-- **A step is a call of a handler, or nothing**, and no letter counts wrong, as long as no rebuild
begins while the p2p thread looks. -/
theorem act_view {tick : Tick X} (steady : s.Steady) (apart : s.Apart tick)
    (sized : ∀ letter, tick = .receive letter → letter.Whole)
    (acted : s.act p2pPort tick = some (s', letters)) :
    ∃ sends, Matches p2pPort s tick.event s' letters sends := by
  obtain ⟨running, ticks⟩ := act_cases acted
  cases ticks with
  | db ofDb whole done =>
      obtain ⟨steady', same, viewed⟩ := cleared_view steady apart ofDb whole done
      exact ⟨[], steady', nofun, by rw [same]; exact (List.append_nil _).symm, viewed⟩
  | blind event away blind done =>
      rw [event]
      exact ⟨_, blind_view away blind done⟩
  | tells away whole phase flag =>
      refine ⟨s.daemon.p2p.myPeers.map fun addr =>
        (addr, .hash (localhost p2pPort) s.daemon.store.myHashes), ⟨fun _ => whole, trivial⟩,
        nofun, by rw [pending_away away]; rfl, ?_⟩
      show (s.view X).act p2pPort (.bcastHashes : Event X) = _
      rw [view_idle away whole]
      simp [Daemon.act, Daemon.actRunning, p2pBcastHashes, view, Reading.done, Filling.done, flag,
        phase, running, whole]
  | @looks count sender hashes away whole phase =>
      refine ⟨[], ⟨fun _ => whole, sized _ rfl⟩, nofun, by rw [pending_away away]; rfl, ?_⟩
      show (s.view X).act p2pPort (.answerP2p (.hash sender hashes) : Event X) = _
      rw [view_idle away whole]
      simp [Daemon.act, Daemon.actRunning, Daemon.settle, p2pAnswerP2p, view, Reading.done,
        Filling.done, phase, running, whole]
  | @sorts count docs away whole phase asserted =>
      have answered : p2pAnswerP2p X p2pPort s.daemon.store.myHashes s.daemon.p2p (.doc docs) =
          .ok (s.daemon.p2p, [.ins (unknownDocs X s.daemon.store.myHashes docs)]) := by
        rw [p2pAnswerP2p, asserted]
        rfl
      refine ⟨[], ⟨fun _ => whole, trivial⟩, nofun, by rw [pending_away away]; rfl, ?_⟩
      show (s.view X).act p2pPort (.answerP2p (.doc docs) : Event X) = _
      rw [view_idle away whole]
      simp [Daemon.act, Daemon.actRunning, Daemon.settle, view, Reading.done, Filling.done, phase,
        running, whole, answered]
  | @refuses count docs f away whole phase asserted =>
      have failed : p2pAnswerP2p X p2pPort s.daemon.store.myHashes s.daemon.p2p (.doc docs) =
          .error f := by
        rw [p2pAnswerP2p, asserted]
        rfl
      refine ⟨[], ⟨fun _ => whole, by rw [away]; trivial⟩, nofun,
        by rw [pending_away away]; simp [pending, away, Reading.sends, Letters.msgs], ?_⟩
      show (s.view X).act p2pPort (.answerP2p (.doc docs) : Event X) = _
      rw [view_idle away whole]
      simp [Daemon.act, Daemon.actRunning, Daemon.settle, view, Reading.done, Filling.done, phase,
        running, whole, away, failed]
  | look looked => exact ⟨[], look_view steady looked⟩
  | fill filled => exact ⟨[], fill_view steady filled⟩

end Shared

end Piac
