/-
# Daemon.Overlap — a broadcast in the middle of a rebuild

What a daemon whose threads share `my_hashes` (`Daemon.Shared`) may announce, and what becomes of
the daemon that is told.

* `Stored.act`: whatever is in the set at any time is in the database.
* `announced_of_run`: a count that is announced has been the size of the set, and each hash has
  been in the database, but not at the same time.
* `told_prefix`: for a rebuild that begins before a peer is told, each first part of what it lists
  may come under the count of the set before it.
* `short_fatal`: a daemon that is told of more hashes than are listed ends.
* `torn_broadcast`: all of this.
-/
import Piac.Daemon.Effects
import Piac.Daemon.Shared

namespace Piac

set_option autoImplicit false

open Piac.Theory.CppString Piac.Theory.Transition

variable {X : Platform} {p2pPort : Nat}

namespace Shared

/-! ## What the set is made of -/

variable (X) in
/-- The set is part of the hashes of the database, and all of them when no rebuild is going on. -/
def Stored (s : Shared) : Prop := Mirrors X (Filling.done s.daemon s.filling).store

theorem Stored.start {peers : List Bytes} {db : Database} (well : WellStored X db) :
    Stored X (Shared.start X peers db) := dbUpdateHashes_mirrors well

/-- What is in the set is stored. -/
theorem Stored.mem {s : Shared} (stored : Stored X s) {h : Bytes}
    (member : h ∈ s.daemon.store.myHashes) : h ∈ hashes X s.daemon.store.db := by
  obtain ⟨d, reading, filling⟩ := s
  cases filling with
  | none => exact (stored.same h).mp member
  | some f => exact (stored.same h).mp (List.mem_append_left f.rest member)

theorem Stored.whole {s : Shared} (stored : Stored X s) (whole : s.filling = none) :
    Mirrors X s.daemon.store := by
  rw [Stored, whole] at stored
  exact stored

theorem Stored.of_store {s s' : Shared} (stored : Stored X s) (filling : s'.filling = s.filling)
    (store : s'.daemon.store = s.daemon.store) : Stored X s' := by
  obtain ⟨d, reading, filling_⟩ := s
  obtain ⟨d', reading', filling'⟩ := s'
  cases filling
  cases filling_ with
  | none => rwa [Stored, Filling.done, store]
  | some f =>
      have same : (Filling.done d' (some f)).store = (Filling.done d (some f)).store := by
        simp only [Filling.done]
        rw [show d'.store = d.store from store]
      rwa [Stored, same]

theorem Stored.cleared {s : Shared} (stored : Stored X s) (whole : s.filling = none)
    {event : Event X} {d : Daemon} {sends : Sends}
    (acted : s.daemon.act p2pPort event = some (d, sends)) : Stored X (s.cleared d) := by
  have mirrors : Mirrors X d.store :=
    (act_acts (stored.whole whole) acted).2.mirrors (stored.whole whole)
  unfold Shared.cleared
  dsimp only
  split
  · simpa [Stored, Filling.done] using mirrors
  · rw [Stored, whole]
    exact mirrors

theorem look_store {s s' : Shared} {letters : Letters}
    (looked : s.look X p2pPort = some (s', letters)) :
    s'.filling = s.filling ∧ s'.daemon.store = s.daemon.store := by
  obtain ⟨d, reading, filling⟩ := s
  cases reading with
  | away => cases looked
  | telling peers => cases peers <;> (cases looked; exact ⟨rfl, rfl⟩)
  | writing addr peers count told =>
      simp only [look] at looked
      split at looked <;> (cases looked; exact ⟨rfl, rfl⟩)
  | looking sender num hashes =>
      cases num with
      | zero => cases looked; exact ⟨rfl, rfl⟩
      | succ num => cases hashes <;> (cases looked; exact ⟨rfl, rfl⟩)
  | sorting docs kept => cases docs <;> (cases looked; exact ⟨rfl, rfl⟩)

/-- **Whatever is in the set is stored**, also while the set is rebuilt. -/
theorem Stored.act {s s' : Shared} {tick : Tick X} {letters : Letters} (stored : Stored X s)
    (acted : s.act p2pPort tick = some (s', letters)) : Stored X s' := by
  cases (act_cases acted).2 with
  | db _ whole done => exact stored.cleared whole done
  | blind _ _ blind done => exact stored.of_store rfl (Daemon.act_store blind.ofP2p done)
  | tells | looks | sorts | refuses => exact stored.of_store rfl rfl
  | look looked =>
      obtain ⟨filling, store⟩ := look_store looked
      exact stored.of_store filling store
  | fill filled =>
      obtain ⟨d, reading, filling⟩ := s
      cases filling with
      | none => cases filled
      | some f =>
          obtain ⟨rest, notes⟩ := f
          cases rest <;> (cases filled; simpa [Stored, Filling.done] using stored)

/-! ## What is announced -/

/-- A call that does not look at the set announces nothing of it. -/
theorem blind_sends {s : Shared} (stored : Stored X s) {event : Event X} {d : Daemon} {sends : Sends}
    (blind : s.daemon.Blind event) (acted : s.daemon.act p2pPort event = some (d, sends))
    {addr sender : Bytes} {told : List Bytes} : (addr, .hash sender told) ∉ sends := by
  have acts := (act_acts stored (Filling.act_done s.filling blind acted)).2
  generalize Filling.done d s.filling = d' at acts
  intro sent
  cases acts with
  | bcastHashes _ flag =>
      have down : s.daemon.p2p.toBcastHashes = false := blind
      have same : (Filling.done s.daemon s.filling).p2p = s.daemon.p2p := by
        cases s.filling <;> rfl
      rw [same, down] at flag
      cases flag
  | bcastPeers _ _ => simp at sent
  | sendDbRequests _ _ _ => simp at sent
  | answerPut _ _ _ _ => simp at sent
  | _ => cases sent

/-- Of a HASH that is sent or being written, the count is one that meets `P`, and the hashes are
some that meet `Q`. -/
def Tells (P : Nat → Prop) (Q : Bytes → Prop) (count : Nat) (told : List Bytes) : Prop :=
  P count ∧ ∀ h ∈ told, Q h

/-- The same of a loop that is going on. -/
def Writes (P : Nat → Prop) (Q : Bytes → Prop) (reading : Reading) : Prop :=
  ∀ addr peers count told, reading = .writing addr peers count told → Tells P Q count told

theorem cleared_reading (s : Shared) (d : Daemon) : (s.cleared d).reading = s.reading := by
  unfold cleared
  dsimp only
  split <;> rfl

/-- What is told is what was read, and what is read is what is there. -/
theorem act_tells {s s' : Shared} {tick : Tick X} {letters : Letters} (stored : Stored X s)
    (acted : s.act p2pPort tick = some (s', letters)) {P : Nat → Prop} {Q : Bytes → Prop}
    (size : P s.daemon.store.myHashes.length) (elements : ∀ h ∈ s.daemon.store.myHashes, Q h)
    (writes : Writes P Q s.reading) :
    Writes P Q s'.reading ∧ ∀ addr count sender told,
      (addr, (⟨count, .hash sender told⟩ : Letter)) ∈ letters → Tells P Q count told := by
  have silent : ∀ addr count sender told,
      (addr, (⟨count, .hash sender told⟩ : Letter)) ∈ ([] : Letters) → Tells P Q count told :=
    fun _ _ _ _ member => absurd member List.not_mem_nil
  cases (act_cases acted).2 with
  | db =>
      rw [cleared_reading]
      exact ⟨writes, silent⟩
  | blind _ _ blind done =>
      refine ⟨writes, fun addr count sender told member => ?_⟩
      obtain ⟨⟨addr', msg⟩, sent, same⟩ := List.mem_map.mp member
      cases same
      exact absurd sent (blind_sends stored blind done)
  | tells | looks | sorts => exact ⟨by rintro _ _ _ _ ⟨⟩, silent⟩
  | refuses => exact ⟨writes, silent⟩
  | look looked =>
      obtain ⟨d, reading, filling⟩ := s
      cases reading with
      | away => cases looked
      | telling peers =>
          cases peers with
          | nil =>
              cases looked
              exact ⟨by rintro _ _ _ _ ⟨⟩, silent⟩
          | cons addr peers =>
              cases looked
              refine ⟨?_, silent⟩
              rintro _ _ _ _ ⟨⟩
              exact ⟨size, fun _ member => absurd member List.not_mem_nil⟩
      | writing addr peers count told =>
          obtain ⟨counted, read⟩ := writes addr peers count told rfl
          simp only [look] at looked
          split at looked
          · rename_i hash next
            cases looked
            refine ⟨?_, silent⟩
            rintro _ _ _ _ ⟨⟩
            refine ⟨counted, fun h member => ?_⟩
            rcases List.mem_append.mp member with old | new
            · exact read h old
            · rw [List.mem_singleton.mp new]
              exact elements hash (List.mem_of_getElem? next)
          · cases looked
            refine ⟨by rintro _ _ _ _ ⟨⟩, fun addr' count' sender told' member => ?_⟩
            cases List.mem_singleton.mp member
            exact ⟨counted, read⟩
      | looking sender num hashes =>
          cases num with
          | zero => cases looked; exact ⟨by rintro _ _ _ _ ⟨⟩, silent⟩
          | succ num => cases hashes <;> (cases looked; exact ⟨by rintro _ _ _ _ ⟨⟩, silent⟩)
      | sorting docs kept =>
          cases docs <;> (cases looked; exact ⟨by rintro _ _ _ _ ⟨⟩, silent⟩)
  | fill filled =>
      obtain ⟨d, reading, filling⟩ := s
      cases filling with
      | none => cases filled
      | some f =>
          obtain ⟨rest, notes⟩ := f
          cases rest <;> (cases filled; exact ⟨writes, silent⟩)

/-- A step with all that has been written before. -/
def writes (p2pPort : Nat) (t : Shared × Letters) (tick : Tick X) : Option (Shared × Letters) :=
  (t.1.act p2pPort tick).map fun (s, letters) => (s, t.2 ++ letters)

/-- Any run of both threads, from the start of their loops on. -/
abbrev Life (p2pPort : Nat) (s : Shared) (ticks : List (Tick X)) (s' : Shared) (sent : Letters) :
    Prop :=
  Run (writes p2pPort) (fun _ _ => True) (s, []) ticks (s', sent)

/-- A state with `P` was passed on the way. -/
def Passed (p2pPort : Nat) (s : Shared) (ticks : List (Tick X)) (P : Shared → Prop) : Prop :=
  ∃ earlier later u sent, ticks = earlier ++ later ∧ Life p2pPort s earlier u sent ∧ P u

theorem Passed.snoc {s : Shared} {ticks : List (Tick X)} {P : Shared → Prop}
    (passed : Passed p2pPort s ticks P) (tick : Tick X) : Passed p2pPort s (ticks ++ [tick]) P := by
  obtain ⟨earlier, later, u, sent, rfl, life, holds⟩ := passed
  exact ⟨earlier, later ++ [tick], u, sent, List.append_assoc .., life, holds⟩

/-- **A count that is announced was the size of the set at some time, and each hash was in the
database at some time.** -/
theorem announced_of_run {peers : List Bytes} {db : Database} (well : WellStored X db)
    {ticks : List (Tick X)} {s : Shared} {sent : Letters}
    (life : Life p2pPort (Shared.start X peers db) ticks s sent) :
    ∀ addr count sender told, (addr, (⟨count, .hash sender told⟩ : Letter)) ∈ sent →
      Passed p2pPort (Shared.start X peers db) ticks
        (fun u => u.daemon.store.myHashes.length = count) ∧
      ∀ h ∈ told, Passed p2pPort (Shared.start X peers db) ticks
        fun u => h ∈ hashes X u.daemon.store.db := by
  let P := fun (ticks : List (Tick X)) count => Passed p2pPort (Shared.start X peers db) ticks
    fun u => u.daemon.store.myHashes.length = count
  let Q := fun (ticks : List (Tick X)) h => Passed p2pPort (Shared.start X peers db) ticks
    fun u => h ∈ hashes X u.daemon.store.db
  have all : Stored X s ∧ Writes (P ticks) (Q ticks) s.reading ∧ ∀ addr count sender told,
      (addr, (⟨count, .hash sender told⟩ : Letter)) ∈ sent → Tells (P ticks) (Q ticks) count told := by
    unfold Life at life
    generalize state : (s, sent) = t at life
    induction life generalizing s sent with
    | nil =>
        cases state
        exact ⟨.start well, nofun, nofun⟩
    | @snoc ticks t u tick earlier _ stepped ih =>
        subst state
        obtain ⟨⟨s', letters⟩, acted, shape⟩ := Option.map_eq_some_iff.mp stepped
        cases shape
        obtain ⟨stored, writing, told⟩ := @ih t.1 t.2 rfl
        have more : ∀ {count told}, Tells (P ticks) (Q ticks) count told →
            Tells (P (ticks ++ [tick])) (Q (ticks ++ [tick])) count told := fun tells =>
          ⟨tells.1.snoc tick, fun h member => (tells.2 h member).snoc tick⟩
        obtain ⟨writing', new⟩ := act_tells stored acted
          (P := P (ticks ++ [tick])) (Q := Q (ticks ++ [tick]))
          ⟨ticks, [tick], t.1, t.2, rfl, earlier, rfl⟩
          (fun h member => ⟨ticks, [tick], t.1, t.2, rfl, earlier, stored.mem member⟩)
          fun addr peers count told here => more (writing addr peers count told here)
        refine ⟨stored.act acted, writing', fun addr count sender list member => ?_⟩
        rcases List.mem_append.mp member with old | member
        · exact more (told addr count sender list old)
        · exact new addr count sender list member
  exact all.2.2

/-! ## In the middle of a rebuild -/

/-- Some of the insertions of a rebuild. -/
theorem fills (p2pPort : Nat) {d : Daemon} (running : d.fault = none) (reading : Reading)
    (notes : List DbRep) (sent : Letters) (first rest myHashes : List Bytes) :
    Run (writes (X := X) p2pPort) (fun _ _ => True)
      (⟨{ d with store := ⟨d.store.db, myHashes⟩ }, reading, some ⟨first ++ rest, notes⟩⟩, sent)
      (.replicate first.length .fill)
      (⟨{ d with store := ⟨d.store.db, myHashes ++ first⟩ }, reading, some ⟨rest, notes⟩⟩, sent) := by
  induction first generalizing myHashes with
  | nil => simpa using Run.nil
  | cons h first ih =>
      have later := ih (myHashes ++ [h])
      rw [List.append_assoc, List.singleton_append] at later
      refine .cons trivial ?_ later
      simp [writes, act, running, fill]

/-- The rest of the loop over a set that stays as it is, and the message. -/
theorem tells (p2pPort : Nat) {d : Daemon} (running : d.fault = none) (filling : Option Filling)
    (addr : Bytes) (peers : List Bytes) (count : Nat) (sent : Letters) (told rest : List Bytes)
    (same : told ++ rest = d.store.myHashes) :
    Run (writes (X := X) p2pPort) (fun _ _ => True) (⟨d, .writing addr peers count told, filling⟩, sent)
      (.replicate (rest.length + 1) .look)
      (⟨d, .telling peers, filling⟩,
        sent ++ [(addr, ⟨count, .hash (localhost p2pPort) d.store.myHashes⟩)]) := by
  induction rest generalizing told with
  | nil =>
      rw [List.append_nil] at same
      subst same
      refine .cons trivial ?_ .nil
      simp [writes, act, running, look]
  | cons h rest ih =>
      have later := ih (told ++ [h]) (by rw [List.append_assoc]; exact same)
      refine .cons trivial ?_ later
      have next : d.store.myHashes[told.length]? = some h := by
        rw [← same, List.getElem?_append_right (Nat.le_refl _), Nat.sub_self]
        rfl
      simp [writes, act, running, look, next]

/-- This call of the db thread rebuilds the set, and in the end it is that of `d`. -/
structure RebuildsTo (p2pPort : Nat) (s : Shared) (event : Event X) (d : Daemon) : Prop where
  ofDb : event.ofP2p = false
  acted : s.daemon.act p2pPort event = some (d, [])
  running : d.fault = none
  noted : d.toP2p = s.daemon.toP2p ++ [.new]

/-- **A peer may be told any first part of what is listed, under the count of what was there
before**, if the rebuild begins when that count has been read. -/
theorem told_prefix {s : Shared} (running : s.daemon.fault = none) {addr : Bytes}
    {peers : List Bytes} (telling : s.reading = .telling (addr :: peers)) (whole : s.filling = none)
    {event : Event X} {d : Daemon} (rebuild : s.RebuildsTo p2pPort event d) {told : List Bytes}
    (first : told <+: d.store.myHashes) (sent : Letters) :
    ∃ ticks s', Run (writes (X := X) p2pPort) (fun _ _ => True) (s, sent) ticks
        (s', sent ++ [(addr, ⟨s.daemon.store.myHashes.length, .hash (localhost p2pPort) told⟩)]) ∧
      s'.reading = .telling peers ∧ s'.filling.isSome = true := by
  obtain ⟨ofDb, acted, goesOn, noted⟩ := rebuild
  obtain ⟨daemon, reading, filling⟩ := s
  subst telling whole
  dsimp only at running acted noted
  obtain ⟨rest, same⟩ := first
  let count := daemon.store.myHashes.length
  let d' : Daemon := { d with toP2p := daemon.toP2p }
  have goesOn' : d'.fault = none := goesOn
  -- the size, the rebuild up to there, and the loop
  have size : writes p2pPort (⟨daemon, .telling (addr :: peers), none⟩, sent) (.look : Tick X) =
      some (⟨daemon, .writing addr peers count [], none⟩, sent) := by
    simp [writes, act, running, look, count]
  have clear : writes p2pPort (⟨daemon, .writing addr peers count [], none⟩, sent) (.call event) =
      some (⟨{ d' with store := ⟨d.store.db, []⟩ }, .writing addr peers count [],
        some ⟨told ++ rest, [.new]⟩⟩, sent) := by
    cases event with
    | client cmd | dbPeerOp =>
        simp [writes, act, running, call, acted, cleared, noted, same, d']
    | bcastPeers | bcastHashes | sendDbRequests | answerP2p msg | answerDb | pass => cases ofDb
  have filled := fills (X := X) p2pPort goesOn' (.writing addr peers count []) [.new]
    sent told rest []
  have written := tells (X := X) p2pPort (d := { d' with store := ⟨d.store.db, told⟩ }) goesOn'
    (some ⟨rest, [.new]⟩) addr peers count sent [] told rfl
  exact ⟨_, _, (filled.trans written).cons trivial clear |>.cons trivial size, rfl, rfl⟩

/-! ## What becomes of who is told -/

/-- It looks for more hashes than are left, or it has ended. -/
def Short (s : Shared) : Prop :=
  s.daemon.fault ≠ none ∨
    ∃ sender num hashes, s.reading = .looking sender num hashes ∧ hashes.length < num

theorem Short.act {s s' : Shared} {tick : Tick X} {letters : Letters} (short : Short s)
    (acted : s.act p2pPort tick = some (s', letters)) : Short s' := by
  obtain ⟨running, ticks⟩ := act_cases acted
  obtain ⟨sender, num, hashes, looking, fewer⟩ := short.resolve_left fun ended => ended running
  have away : s.reading ≠ .away := fun away => by rw [looking] at away; cases away
  cases ticks with
  | db => exact .inr ⟨sender, num, hashes, (cleared_reading _ _).trans looking, fewer⟩
  | blind _ here => exact absurd here away
  | tells here | looks here | sorts here | refuses here => exact absurd here away
  | look looked =>
      obtain ⟨d, reading, filling⟩ := s
      subst looking
      cases num with
      | zero => omega
      | succ num =>
          cases hashes with
          | nil =>
              cases looked
              exact .inl (by simp)
          | cons h hashes =>
              cases looked
              exact .inr ⟨sender, num, hashes, rfl, Nat.lt_of_succ_lt_succ fewer⟩
  | fill filled =>
      obtain ⟨d, reading, filling⟩ := s
      cases filling with
      | none => cases filled
      | some f =>
          obtain ⟨rest, notes⟩ := f
          cases rest <;> (cases filled; exact .inr ⟨sender, num, hashes, looking, fewer⟩)

/-- The looks up to the one that goes past the last frame. -/
theorem short_looks (p2pPort : Nat) {d : Daemon} (running : d.fault = none) (filling : Option Filling)
    (sender : Bytes) (num : Nat) (hashes : List Bytes) (fewer : hashes.length < num) (sent : Letters) :
    ∃ s, Run (writes (X := X) p2pPort) (fun _ _ => True) (⟨d, .looking sender num hashes, filling⟩, sent)
        (.replicate (hashes.length + 1) .look) (s, sent) ∧ s.daemon.fault = some .pastLastFrame := by
  induction hashes generalizing num d with
  | nil =>
      obtain ⟨num, rfl⟩ := Nat.exists_eq_succ_of_ne_zero (Nat.ne_of_gt fewer)
      exact ⟨⟨{ d with fault := some .pastLastFrame }, .looking sender (num + 1) [], filling⟩,
        .cons trivial (by simp [writes, act, running, look]) .nil, rfl⟩
  | cons h hashes ih =>
      obtain ⟨num, rfl⟩ := Nat.exists_eq_succ_of_ne_zero (Nat.ne_of_gt (Nat.zero_lt_of_lt fewer))
      obtain ⟨s, run, ended⟩ := @ih { d with p2p := noteHash d.store.myHashes sender d.p2p h } running
        num (Nat.lt_of_succ_lt_succ fewer)
      exact ⟨s, .cons trivial (by simp [writes, act, running, look]) run, ended⟩

/-- **A daemon that takes a HASH that counts more than it lists ends**, and never gets back to its
loop. -/
theorem short_fatal {s : Shared} (running : s.daemon.fault = none) (away : s.reading = .away)
    (waits : s.mayWait = true) {count : Nat} {sender : Bytes} {told : List Bytes}
    (fewer : told.length < count) :
    (∃ s', Life p2pPort s
        (.receive ⟨count, .hash sender told⟩ :: .replicate (told.length + 1) (.look : Tick X)) s' [] ∧
      s'.daemon.fault = some .pastLastFrame) ∧
    ∀ ticks s' sent, Life p2pPort s (.receive ⟨count, .hash sender told⟩ :: ticks : List (Tick X)) s'
        sent → s'.daemon.fault ≠ none ∨ s'.reading ≠ .away := by
  obtain ⟨d, reading, filling⟩ := s
  subst away
  dsimp only at running
  have taken : writes p2pPort (⟨d, .away, filling⟩, [])
      (.receive ⟨count, .hash sender told⟩ : Tick X) =
        some (⟨d, .looking sender count told, filling⟩, []) := by
    simp [writes, act, running, receive, waits]
  refine ⟨?_, fun ticks s' sent life => ?_⟩
  · obtain ⟨s', run, ended⟩ := short_looks (X := X) p2pPort running filling sender count
      told fewer []
    exact ⟨s', .cons trivial taken run, ended⟩
  · have rest := life.exec
    simp only [exec, taken, Option.bind_some] at rest
    have run : Run (writes (X := X) p2pPort) (fun _ _ => True) _ ticks (s', sent) :=
      .of_exec rest fun _ _ _ => trivial
    have short : Short s' := @Run.invariant _ _ (writes p2pPort) (fun _ _ => True)
      (fun t => Short t.1) _ _ _ run (.inr ⟨sender, count, told, rfl, fewer⟩)
      fun t tick u short _ stepped => by
        obtain ⟨⟨s, letters⟩, acted, rfl⟩ := Option.map_eq_some_iff.mp stepped
        exact short.act acted
    rcases short with ended | ⟨_, _, _, looking, -⟩
    · exact .inl ended
    · refine .inr fun away => ?_
      rw [looking] at away
      cases away

end Shared

open Shared in
/-- **The wait does not protect the reads behind it.** In any life of a daemon what it announces is a
count that the set had at some time, and hashes that were in the database at some time. If a rebuild
begins when it has read the count for a peer, it may tell that peer any first part of the new
listing. A daemon that is told of more hashes than are listed ends, and does not get back to its
loop. -/
theorem torn_broadcast (X : Platform) (p2pPort : Nat) {peers : List Bytes} {db : Database}
    (well : WellStored X db) :
    (∀ (ticks : List (Tick X)) s sent, Life p2pPort (Shared.start X peers db) ticks s sent →
      (∀ addr count sender told, (addr, (⟨count, .hash sender told⟩ : Letter)) ∈ sent →
        Passed p2pPort (Shared.start X peers db) ticks
          (fun u => u.daemon.store.myHashes.length = count) ∧
        ∀ h ∈ told, Passed p2pPort (Shared.start X peers db) ticks
          fun u => h ∈ hashes X u.daemon.store.db) ∧
      ∀ addr later, s.daemon.fault = none → s.reading = .telling (addr :: later) →
        s.filling = none → ∀ (event : Event X) d, s.RebuildsTo p2pPort event d →
          ∀ told, told <+: d.store.myHashes → ∃ (more : List (Tick X)) (s' : Shared),
            Life p2pPort (Shared.start X peers db) (ticks ++ more) s' (sent ++
              [(addr, ⟨s.daemon.store.myHashes.length, .hash (localhost p2pPort) told⟩)]) ∧
            s'.reading = .telling later ∧ s'.filling.isSome = true) ∧
    ∀ s : Shared, s.daemon.fault = none → s.reading = .away → s.mayWait = true →
      ∀ count sender told, told.length < count →
        (∃ s', Life p2pPort s (.receive ⟨count, .hash sender told⟩ ::
            .replicate (told.length + 1) (.look : Tick X)) s' [] ∧
          s'.daemon.fault = some .pastLastFrame) ∧
        ∀ ticks s' sent, Life p2pPort s
          (.receive ⟨count, .hash sender told⟩ :: ticks : List (Tick X)) s' sent →
            s'.daemon.fault ≠ none ∨ s'.reading ≠ .away := by
  refine ⟨fun ticks s sent life => ⟨announced_of_run well life, ?_⟩, ?_⟩
  · intro addr later running telling whole event d rebuild told first
    obtain ⟨more, s', run, after, going⟩ := told_prefix running telling whole rebuild first sent
    exact ⟨more, s', life.trans run, after, going⟩
  · intro s running away waits count sender told fewer
    exact short_fatal running away waits fewer

/-- The database with one ad of `alice`. -/
def oneAd : Database :=
  (indexDocs (reference true) Reference.alice [] [] 0 [Reference.ad 1]).toOption.getD ([], 0) |>.1

theorem oneAd_wellStored : WellStored (reference true) oneAd := by
  have indexed : ∃ r, indexDocs (reference true) Reference.alice [] [] 0 [Reference.ad 1] = .ok r :=
    indexDocs_ok [] _ [] 0 (.inl rfl)
  obtain ⟨⟨db, n⟩, indexed⟩ := indexed
  rw [oneAd, indexed]
  exact indexDocs_wellStored .nil indexed

open Shared in
/-- A daemon that has an ad may tell a peer of it and name none, while another is added. -/
theorem torn_broadcast_none : ∃ (ticks : List (Tick (reference true))) (s : Shared), Life 65001
    (Shared.start (reference true) [localhost 65000] oneAd) ticks s
      [(localhost 65000, .of (.peer [localhost 65001, localhost 65000])),
        (localhost 65000, ⟨1, .hash (localhost 65001) []⟩)] := by
  let start := Shared.start (reference true) [localhost 65000] oneAd
  let ticks : List (Tick (reference true)) := [.call .bcastPeers, .call .bcastHashes]
  let s := (exec (writes 65001) (start, []) ticks).get (by decide +kernel)
  have life : Life 65001 start ticks s.1 s.2 := .computed (by decide +kernel) fun _ _ _ => trivial
  let add : Event (reference true) := .client (.add Reference.alice [Reference.ad 2])
  let d := (s.1.daemon.act 65001 add).get (by decide +kernel)
  have acted : s.1.daemon.act 65001 add = some (d.1, []) := by
    have done : s.1.daemon.act 65001 add = some d := (Option.some_get _).symm
    have silent : d.2 = [] := by decide +kernel
    rw [done, ← silent]
  have rebuild : s.1.RebuildsTo 65001 add d.1 :=
    ⟨rfl, acted, by decide +kernel, by decide +kernel⟩
  obtain ⟨more, s', life', -⟩ := ((torn_broadcast (reference true) 65001 oneAd_wellStored).1
    ticks s.1 s.2 life).2 (localhost 65000) [] (by decide +kernel) (by decide +kernel)
    (by decide +kernel) add d.1 rebuild [] List.nil_prefix
  have same : s.2 ++ [(localhost 65000, (⟨s.1.daemon.store.myHashes.length,
      .hash (localhost 65001) []⟩ : Letter))] =
      [(localhost 65000, .of (.peer [localhost 65001, localhost 65000])),
        (localhost 65000, ⟨1, .hash (localhost 65001) []⟩)] := by decide +kernel
  exact ⟨_, _, same ▸ life'⟩

end Piac
