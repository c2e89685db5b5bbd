/-
# Daemon.Handshake — `my_hashes` between the two threads

`db_update_hashes` rebuilds `my_hashes` under `g_hashes_mtx`, with `g_hashes_access` down
while it does; the p2p thread waits on `g_hashes_cv` until it is up, before its loop and in
front of every look at the set, but lets go of the mutex before it looks. `Theory.Monitor`
is about two threads that do so; a rebuild goes through the set as it is cleared and filled
again (`rebuild`). A read is whatever is looked at until the next wait, one look or many; what
the looks may find without the mutex is the matter of `Daemon.Shared`.

* `handshake_of_run`: whatever the two threads of a daemon do is a run of the monitor.
* `hashes_handshake`: no wait is left without its notification, nothing is read before the first
  rebuild, and at rest the set is that of the database.
-/
import Piac.Theory.Monitor
import Piac.Daemon.Overlap

namespace Piac

set_option autoImplicit false

open Piac.Theory Piac.Theory.CppString Piac.Theory.Transition Piac.Theory.Monitor

variable {X : Platform}

/-! ## A rebuild -/

/-- What `my_hashes` goes through when it is rebuilt from these hashes. -/
def rebuild (hashes : List Bytes) : List (List Bytes) := hashes.scanl emplace []

/-- Hashes that are all different are in the set in the order in which they were inserted. -/
theorem foldl_emplace_nodup {peers hashes : List Bytes} (distinct : (peers ++ hashes).Nodup) :
    hashes.foldl emplace peers = peers ++ hashes := by
  induction hashes generalizing peers with
  | nil => rw [List.foldl_nil, List.append_nil]
  | cons h rest ih =>
      rw [List.append_cons] at distinct
      have new : h ∉ peers := fun known =>
        (List.nodup_append.mp (List.nodup_append.mp distinct).1).2.2 h known h
          (List.mem_singleton_self h) rfl
      rw [List.foldl_cons, emplace, if_neg new, ih distinct, ← List.append_cons]

theorem WellStored.listed_nodup {db : Database} (well : WellStored X db) :
    (dbListHash X db false).Nodup := by
  rw [dbListHash_eq]
  exact well.hashes_nodup

/-- A rebuild ends with the hashes of the database. -/
theorem rebuild_getLastD {db : Database} (well : WellStored X db) (old : List Bytes) :
    (rebuild (dbListHash X db false)).getLastD old = (dbUpdateHashes X ⟨db, old⟩).myHashes := by
  rw [rebuild, List.getLastD_eq_getLast?, List.getLast?_scanl, Option.getD_some,
    foldl_emplace_nodup well.listed_nodup, List.nil_append, dbUpdateHashes,
    well.listed_nodup.dedup]

/-! ## The threads of a daemon -/

namespace Daemon

variable {p2pPort : Nat} {d d' : Daemon} {sends : Sends}

/-- The db thread changes the set only in a call that sends a note. -/
theorem act_unnoted {event : Event X} (ofDb : event.ofP2p = false)
    (acted : d.act p2pPort event = some (d', sends))
    (unnoted : d'.toP2p.drop d.toP2p.length ≠ [.new]) : d'.store.myHashes = d.store.myHashes := by
  obtain ⟨-, acted⟩ := act_running acted
  cases event with
  | client cmd =>
      rcases settle_cases (Option.some.inj acted) with ⟨⟨store, notes⟩, done, shape⟩ | ⟨f, rfl⟩
      · cases shape
        rw [List.drop_left, clientOp_notes done] at unnoted
        exact absurd rfl unnoted
      · rfl
  | dbPeerOp =>
      simp only [actRunning] at acted
      split at acted
      · cases acted
      rename_i req rest queue
      rcases settle_cases (Option.some.inj acted) with ⟨⟨store, reps⟩, done, shape⟩ | ⟨f, rfl⟩
      · cases shape
        rw [List.drop_left] at unnoted
        cases req with
        | get addr hashes =>
            simp only [Piac.dbPeerOp, bind_eq_ok, pure_eq_ok] at done
            obtain ⟨-, -, docs, -, shape⟩ := done
            cases shape
            rfl
        | ins docs =>
            simp only [Piac.dbPeerOp, bind_eq_ok] at done
            obtain ⟨-, -, done⟩ := done
            split at done
            · cases done
              rfl
            · simp only [bind_eq_ok, pure_eq_ok] at done
              obtain ⟨db, -, shape⟩ := done
              cases shape
              exact absurd rfl unnoted
      · rfl
  | bcastPeers | bcastHashes | sendDbRequests | answerP2p msg | answerDb | pass => cases ofDb

end Daemon

namespace Shared

variable {p2pPort : Nat} {s s' : Shared} {letters : Letters}

/-- The two threads at the mutex. -/
def monitor (s : Shared) : Monitor.State (List Bytes) where
  value := s.daemon.store.myHashes
  ready := s.filling.isNone
  owner := if s.filling.isSome then some .writer else none
  writer :=
    match s.filling with
    | none => .away
    | some f => .building (f.rest.scanl emplace s.daemon.store.myHashes).tail
  reader := if s.reading = .away then .away else .reading

/-- Some steps of the monitor. -/
def Follows (m m' : Monitor.State (List Bytes)) : Prop := ∃ ls, exec Monitor.step m ls = some m'

theorem Follows.refl (m : Monitor.State (List Bytes)) : Follows m m := ⟨[], rfl⟩

theorem monitor_congr (set : s'.daemon.store.myHashes = s.daemon.store.myHashes)
    (filling : s'.filling = s.filling) (reading : s'.reading = .away ↔ s.reading = .away) :
    s'.monitor = s.monitor := by
  simp only [monitor, set, filling, reading]

theorem follows_of_same (set : s'.daemon.store.myHashes = s.daemon.store.myHashes)
    (filling : s'.filling = s.filling) (reading : s'.reading = .away ↔ s.reading = .away) :
    Follows s.monitor s'.monitor := by
  rw [monitor_congr set filling reading]
  exact .refl _

/-- A wait that is over at once. -/
theorem follows_wait (away : s.reading = .away) (whole : s.filling = none)
    (set : s'.daemon.store.myHashes = s.daemon.store.myHashes) (filling : s'.filling = s.filling)
    (reading : s'.reading ≠ .away) : Follows s.monitor s'.monitor :=
  ⟨[.want, .lock, .check, .unlock], by
    simp [exec, Monitor.step, monitor, away, whole, set, filling, reading]⟩

/-- The end of what is read. -/
theorem follows_finish (reads : s.reading ≠ .away)
    (set : s'.daemon.store.myHashes = s.daemon.store.myHashes) (filling : s'.filling = s.filling)
    (away : s'.reading = .away) : Follows s.monitor s'.monitor :=
  ⟨[.finish], by simp [exec, Monitor.step, monitor, reads, set, filling, away]⟩

theorem scanl_eq_cons (hashes set : List Bytes) :
    hashes.scanl emplace set = set :: (hashes.scanl emplace set).tail := by
  cases hashes <;> simp

theorem follows_cleared {event : Event X} {d : Daemon} {sends : Sends} (whole : s.filling = none)
    (ofDb : event.ofP2p = false) (acted : s.daemon.act p2pPort event = some (d, sends)) :
    Follows s.monitor (s.cleared d).monitor := by
  unfold Shared.cleared
  dsimp only
  split
  · refine ⟨[.begin (rebuild d.store.myHashes), .lower, .build], ?_⟩
    rw [rebuild, scanl_eq_cons]
    simp [exec, Monitor.step, monitor, whole]
  · rename_i unnoted
    exact follows_of_same (Daemon.act_unnoted ofDb acted unnoted) rfl Iff.rfl

theorem follows_look (looked : s.look X p2pPort = some (s', letters)) :
    Follows s.monitor s'.monitor := by
  obtain ⟨filling, store⟩ := look_store looked
  have set : s'.daemon.store.myHashes = s.daemon.store.myHashes := by rw [store]
  by_cases away : s.reading = .away
  · simp [look, away] at looked
  · by_cases done : s'.reading = .away
    · exact follows_finish away set filling done
    · exact follows_of_same set filling (iff_of_false done away)

theorem follows_fill (stored : Stored X s) (filled : s.fill = some (s', letters)) :
    Follows s.monitor s'.monitor := by
  obtain ⟨d, reading, filling⟩ := s
  cases filling with
  | none => cases filled
  | some f =>
      obtain ⟨rest, notes⟩ := f
      cases rest with
      | nil =>
          cases filled
          refine ⟨[.raise, .notify, .leave], ?_⟩
          by_cases away : reading = .away <;> simp [exec, Monitor.step, monitor, away]
      | cons hash rest =>
          cases filled
          have distinct : (d.store.myHashes ++ hash :: rest).Nodup := stored.nodup
          have new : hash ∉ d.store.myHashes := fun old =>
            (List.nodup_append.mp distinct).2.2 hash old hash List.mem_cons_self rfl
          refine ⟨[.build], ?_⟩
          simp only [exec, Monitor.step, monitor, List.scanl_cons, List.tail_cons, emplace, if_neg new]
          rw [scanl_eq_cons]
          rfl

/-- **Every step of the two threads is some steps of the monitor.** -/
theorem follows_act {tick : Tick X} (stored : Stored X s)
    (acted : s.act p2pPort tick = some (s', letters)) : Follows s.monitor s'.monitor := by
  cases (act_cases acted).2 with
  | db ofDb whole done => exact follows_cleared whole ofDb done
  | blind _ _ blind done =>
      exact follows_of_same (by rw [Daemon.act_store blind.ofP2p done]) rfl Iff.rfl
  | tells away whole | looks away whole | sorts away whole =>
      exact follows_wait away whole rfl rfl (by simp)
  | refuses => exact follows_of_same rfl rfl Iff.rfl
  | look looked => exact follows_look looked
  | fill filled => exact follows_fill stored filled

/-- The insertions of a rebuild. -/
theorem exec_builds (rest set : List Bytes) :
    exec Monitor.step ⟨set, false, some .writer, .building (rest.scanl emplace set).tail, .away⟩
      (.replicate rest.length .build) =
        some ⟨rest.foldl emplace set, false, some .writer, .building [], .away⟩ := by
  induction rest generalizing set with
  | nil => simp [exec]
  | cons hash rest ih =>
      rw [List.scanl_cons, List.tail_cons, scanl_eq_cons]
      exact ih (emplace set hash)

/-- The first rebuild. -/
theorem follows_start {peers : List Bytes} {db : Database} (well : WellStored X db) :
    Follows (.start []) (Shared.start X peers db).monitor := by
  have listed : (dbUpdateHashes X ⟨db, []⟩).myHashes = (dbListHash X db false) :=
    well.listed_nodup.dedup
  refine ⟨[.begin (rebuild (dbListHash X db false)), .lower, .build] ++
    (.replicate (dbListHash X db false).length .build ++ [.raise, .notify, .leave]), ?_⟩
  have begun : exec Monitor.step (.start []) [.begin (rebuild (dbListHash X db false)), .lower, .build] =
      some ⟨[], false, some .writer, .building ((dbListHash X db false).scanl emplace []).tail, .away⟩ := by
    rw [rebuild, scanl_eq_cons]
    rfl
  rw [exec_append, begun, Option.bind_some, exec_append, exec_builds, Option.bind_some,
    foldl_emplace_nodup well.listed_nodup, ← listed]
  rfl

/-- **Whatever the two threads of a daemon do is a run of the monitor.** -/
theorem handshake_of_run {peers : List Bytes} {db : Database} (well : WellStored X db)
    {ticks : List (Tick X)} {sent : Letters}
    (life : Life p2pPort (Shared.start X peers db) ticks s sent) :
    ∃ ls, Run Monitor.step (fun _ _ => True) (.start []) ls s.monitor := by
  have kept : Stored X s ∧ Follows (.start []) s.monitor :=
    @Run.invariant _ _ (writes p2pPort) (fun _ _ => True)
      (fun t => Stored X t.1 ∧ Follows (.start []) t.1.monitor) _ _ _ life
      ⟨.start well, follows_start well⟩ fun t tick u inv _ stepped => by
        obtain ⟨⟨s', letters⟩, acted, rfl⟩ := Option.map_eq_some_iff.mp stepped
        obtain ⟨ls, before⟩ := inv.2
        obtain ⟨ms, after⟩ := follows_act inv.1 acted
        exact ⟨inv.1.act acted, ls ++ ms, by rw [exec_append, before]; exact after⟩
  obtain ⟨ls, done⟩ := kept.2
  exact ⟨ls, .of_exec done fun _ _ _ => trivial⟩

end Shared

/-! ## The handshake -/

/-- **The two threads agree about `my_hashes`**: the p2p thread looks at it only after the first
rebuild, from which on it never waits; however the threads are scheduled they come to a rest;
and where they rest, the p2p thread does not wait if a rebuild has begun, and `my_hashes` is
what `db_update_hashes` makes of the database of the last one. -/
theorem hashes_handshake (X : Platform) {ls : List (Monitor.Label (List Bytes))}
    {s : Monitor.State (List Bytes)}
    (run : Run Monitor.step (fun _ _ => True) (.start []) ls s) :
    (s.reader = .through ∨ s.reader = .reading → .raise ∈ ls) ∧
    (.raise ∈ ls → s.reader = .entered → s.ready = true) ∧
    ¬ Diverges Monitor.step Internal s ∧
    ∀ ms t, Run Monitor.step Internal s ms t → Stuck Monitor.step Internal t →
      t.writer = .away ∧ (t.reader = .waiting → ∀ stages, .begin stages ∉ ls) ∧
      ∀ earlier db old later, ls = earlier ++ .begin (rebuild (dbListHash X db false)) :: later →
        (∀ stages, .begin stages ∉ later) → WellStored X db →
        t.value = (dbUpdateHashes X ⟨db, old⟩).myHashes := by
  obtain ⟨finite, -, rests⟩ := waits_end run
  refine ⟨raised_of_through run, ready_of_entered run, finite, fun ms t more stuck => ?_⟩
  obtain ⟨away, value, reader⟩ := rests ms t more stuck
  refine ⟨away, fun waits => ?_, ?_⟩
  · rcases reader with other | other | ⟨-, none_⟩
    · rw [waits] at other; cases other
    · rw [waits] at other; cases other
    · exact none_
  · rintro earlier db old later rfl last well
    rw [value, built_last last, rebuild_getLastD well, dbUpdateHashes, dbUpdateHashes]

/-- The p2p thread waits at its start, and is woken. -/
theorem hashes_handshake_start : ∃ ls s,
    Run Monitor.step (fun _ _ => True) (.start ([] : List Bytes)) ls s ∧ s.reader = .woken ∧
    ∀ ms t, Run Monitor.step Internal s ms t → Stuck Monitor.step Internal t →
      t.reader ≠ .waiting := by
  let ls : List (Monitor.Label (List Bytes)) := [.want, .lock, .check, .begin (rebuild []), .lower,
    .build, .raise, .notify]
  have run : Run Monitor.step (fun _ _ => True) (.start []) ls
    ((exec Monitor.step (.start []) ls).get (by rfl)) := .computed _ fun _ _ _ => trivial
  refine ⟨ls, _, run, by rfl, fun ms t more stuck waits => ?_⟩
  have rested := (hashes_handshake (reference true) run).2.2.2 ms t more stuck
  exact rested.2.1 waits (rebuild []) (by simp [ls])

end Piac
