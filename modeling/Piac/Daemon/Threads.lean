/-
# Daemon.Threads — the two threads on a bounded inproc pair

`Daemon.Loop` lets a handler send to the other thread whatever it wants. Here a
direction of the inproc pair holds `capacity` messages and a send waits for room, so
each thread has a place in its own loop: the p2p thread also knows whether its poll
reported the pair, and the db thread goes from its client socket to its poll and
back. A handler's messages are held (`p2pSend`, `dbSend`) until they are pushed, and
its thread does nothing else before that.

* `refines`: over the same daemon with what is held appended to the pair, each step
  is an event of `Daemon.Loop` or none.
* `no_deadlock`: the threads do not come to wait for each other if, whenever the p2p
  thread answers a REQ or a DOC, there is room for what it sends, or for everything
  that the db thread can send before it receives again.
* `crowded_deadlock`: from an answer without that room they may.
* `deadlocks`: they may whatever the capacity.
-/
import Piac.Daemon.Loop
import Piac.Daemon.Reference
import Piac.Theory.Transition

namespace Piac

set_option autoImplicit false

open Piac.Theory.CppString Piac.Theory.Transition

/-! ## The two loops -/

/-- Where the db thread stands in its loop: at the client socket, or at the poll. -/
inductive DbPhase where
  | client
  | poll
  deriving DecidableEq

structure Threads where
  daemon : Daemon
  /-- The last poll of the p2p thread reported the pair. -/
  reported : Bool
  p2pSend : List DbReq
  dbPhase : DbPhase
  dbSend : List DbRep
  deriving DecidableEq

inductive ThreadLabel (X : Platform) where
  | p2p (event : Event X)
  | p2pPush
  | client (cmd : ClientCmd X)
  /-- No client request, or one that sends no note. -/
  | noClient
  | dbPeerOp
  /-- The poll of the db thread has timed out. -/
  | idle
  | dbPush

variable {X : Platform}

/-- Both loops at their start. -/
def Threads.start (d : Daemon) : Threads := ⟨d, false, [], .client, []⟩

namespace Threads

/-- The p2p thread after a call: what it has sent to the db thread is held. -/
def holdP2p (t : Threads) (d : Daemon) : Threads :=
  { t with daemon := { d with toDb := t.daemon.toDb }, p2pSend := d.toDb.drop t.daemon.toDb.length }

/-- The db thread after a call. -/
def holdDb (t : Threads) (d : Daemon) (dbPhase : DbPhase) : Threads :=
  { t with daemon := { d with toP2p := t.daemon.toP2p }, dbPhase,
           dbSend := d.toP2p.drop t.daemon.toP2p.length }

/-- The p2p thread may make this call: it waits for no room, and after an answer to a peer it
goes by what its poll has reported. -/
def ready (t : Threads) : Event X → Bool
  | .answerDb => t.p2pSend.isEmpty && (t.daemon.phase != .answered || t.reported)
  | .pass => t.p2pSend.isEmpty && !t.reported
  | event => t.p2pSend.isEmpty && event.ofP2p

/-- Whether the poll reported the pair: a message of a peer is answered right after it. -/
def polled (t : Threads) : Event X → Bool
  | .answerP2p _ => !t.daemon.toP2p.isEmpty
  | _ => t.reported

def step (p2pPort capacity : Nat) (t : Threads) : ThreadLabel X → Option Threads
  | .p2p event =>
      if t.ready event then
        (t.daemon.act p2pPort event).map fun (d, _) =>
          { t.holdP2p d with reported := t.polled event }
      else none
  | .p2pPush =>
      match t.p2pSend with
      | [] => none
      | req :: rest =>
          if t.daemon.fault = none ∧ t.daemon.toDb.length < capacity then
            some { t with daemon := { t.daemon with toDb := t.daemon.toDb ++ [req] },
                          p2pSend := rest }
          else none
  | .client cmd =>
      if t.dbSend = [] ∧ t.dbPhase = .client then
        (t.daemon.act p2pPort (.client cmd)).map fun (d, _) => t.holdDb d .poll
      else none
  | .noClient =>
      if t.dbSend = [] ∧ t.dbPhase = .client then some { t with dbPhase := .poll } else none
  | .dbPeerOp =>
      if t.dbSend = [] ∧ t.dbPhase = .poll then
        (t.daemon.act p2pPort (.dbPeerOp : Event X)).map fun (d, _) => t.holdDb d .client
      else none
  | .idle =>
      if t.dbSend = [] ∧ t.dbPhase = .poll ∧ t.daemon.toDb = [] then
        some { t with dbPhase := .client }
      else none
  | .dbPush =>
      match t.dbSend with
      | [] => none
      | rep :: rest =>
          if t.daemon.fault = none ∧ t.daemon.toP2p.length < capacity then
            some { t with daemon := { t.daemon with toP2p := t.daemon.toP2p ++ [rep] },
                          dbSend := rest }
          else none

/-- Each thread waits for room in the direction that the other one would have to empty. -/
structure Deadlocked (capacity : Nat) (t : Threads) : Prop where
  p2p : t.p2pSend ≠ []
  toDb : capacity ≤ t.daemon.toDb.length
  db : t.dbSend ≠ []
  toP2p : capacity ≤ t.daemon.toP2p.length

instance (capacity : Nat) (t : Threads) : Decidable (Deadlocked capacity t) :=
  decidable_of_iff (t.p2pSend ≠ [] ∧ capacity ≤ t.daemon.toDb.length ∧ t.dbSend ≠ [] ∧
      capacity ≤ t.daemon.toP2p.length)
    ⟨fun ⟨p2p, toDb, db, toP2p⟩ => ⟨p2p, toDb, db, toP2p⟩,
      fun ⟨p2p, toDb, db, toP2p⟩ => ⟨p2p, toDb, db, toP2p⟩⟩

/-- Nothing happens any more. -/
theorem Deadlocked.stuck {p2pPort capacity : Nat} {t : Threads} (deadlocked : Deadlocked capacity t)
    (l : ThreadLabel X) : t.step p2pPort capacity l = none := by
  obtain ⟨p2p, toDb, db, toP2p⟩ := deadlocked
  cases l with
  | p2p event =>
      refine if_neg ?_
      cases event <;> simp [ready, p2p]
  | client cmd => exact if_neg fun both => db both.1
  | noClient => exact if_neg fun both => db both.1
  | dbPeerOp => exact if_neg fun both => db both.1
  | idle => exact if_neg fun both => db both.1
  | p2pPush =>
      cases pending : t.p2pSend with
      | nil => exact absurd pending p2p
      | cons req rest => simp [step, pending, Nat.not_lt.mpr toDb]
  | dbPush =>
      cases pending : t.dbSend with
      | nil => exact absurd pending db
      | cons rep rest => simp [step, pending, Nat.not_lt.mpr toP2p]

end Threads

/-! ## What a call does to the pair -/

namespace Daemon

variable {p2pPort : Nat} {d d' : Daemon} {sends : Sends}

/-- The messages of peers that are handed on to the db thread. -/
def asks : PeerMsg → Bool
  | .req _ _ | .doc _ => true
  | .peer _ | .hash _ _ => false

theorem act_running {event : Event X} (acted : d.act p2pPort event = some (d', sends)) :
    d.fault = none ∧ d.actRunning p2pPort event = some (d', sends) :=
  Option.ite_none_right_eq_some.mp acted

theorem settle_cases {α : Type} {result : Except Fault α} {after : α → Daemon × Sends}
    (settled : d.settle result after = (d', sends)) :
    (∃ a, result = .ok a ∧ after a = (d', sends)) ∨ (∃ f, d' = { d with fault := some f }) := by
  cases result with
  | ok a => exact .inl ⟨a, rfl, settled⟩
  | error f =>
      cases settled
      exact .inr ⟨f, rfl⟩

theorem p2pAnswerP2p_length {myHashes : List Bytes} {st st' : P2p} {msg : PeerMsg}
    {reqs : List DbReq} (done : p2pAnswerP2p X p2pPort myHashes st msg = .ok (st', reqs)) :
    reqs.length ≤ 1 ∧ (reqs ≠ [] → asks msg = true) := by
  cases msg with
  | peer addrs =>
      simp only [p2pAnswerP2p, bind_eq_ok, pure_eq_ok] at done
      obtain ⟨_, -, shape⟩ := done
      cases shape
      exact ⟨Nat.zero_le _, fun some_ => absurd rfl some_⟩
  | hash sender hashes =>
      cases done
      exact ⟨Nat.zero_le _, fun some_ => absurd rfl some_⟩
  | req addr hashes =>
      simp only [p2pAnswerP2p, bind_eq_ok, pure_eq_ok] at done
      obtain ⟨_, -, shape⟩ := done
      cases shape
      exact ⟨Nat.le_refl _, fun _ => rfl⟩
  | doc docs =>
      simp only [p2pAnswerP2p, bind_eq_ok, pure_eq_ok] at done
      obtain ⟨_, -, shape⟩ := done
      cases shape
      exact ⟨Nat.le_refl _, fun _ => rfl⟩

/-- A call of the p2p thread takes the first message of the db thread if it answers it, and none
otherwise. -/
theorem act_toP2p_eq {event : Event X} (ofP2p : event.ofP2p = true)
    (acted : d.act p2pPort event = some (d', sends)) :
    (event = .answerDb ∧ ∃ rep, d.toP2p = rep :: d'.toP2p) ∨
      (event ≠ .answerDb ∧ d'.toP2p = d.toP2p) := by
  obtain ⟨-, acted⟩ := act_running acted
  cases event with
  | answerDb =>
      obtain ⟨-, shape⟩ := Option.ite_none_right_eq_some.mp acted
      split at shape
      · cases shape
      rename_i rep rest queue
      refine .inl ⟨rfl, rep, ?_⟩
      rcases settle_cases (Option.some.inj shape) with ⟨_, -, shape⟩ | ⟨f, rfl⟩
      · cases shape
        exact queue
      · exact queue
  | bcastPeers | bcastHashes | pass =>
      obtain ⟨-, shape⟩ := Option.ite_none_right_eq_some.mp acted
      cases shape
      exact .inr ⟨by simp, rfl⟩
  | sendDbRequests =>
      obtain ⟨-, shape⟩ := Option.ite_none_right_eq_some.mp acted
      rcases settle_cases (Option.some.inj shape) with ⟨_, -, shape⟩ | ⟨f, rfl⟩
      · cases shape
        exact .inr ⟨by simp, rfl⟩
      · exact .inr ⟨by simp, rfl⟩
  | answerP2p msg =>
      obtain ⟨-, shape⟩ := Option.ite_none_right_eq_some.mp acted
      rcases settle_cases (Option.some.inj shape) with ⟨_, -, shape⟩ | ⟨f, rfl⟩
      · cases shape
        exact .inr ⟨by simp, rfl⟩
      · exact .inr ⟨by simp, rfl⟩
  | dbPeerOp | client cmd => cases ofP2p

theorem act_toP2p_length {event : Event X} (ofP2p : event.ofP2p = true)
    (acted : d.act p2pPort event = some (d', sends)) : d'.toP2p.length ≤ d.toP2p.length := by
  rcases act_toP2p_eq ofP2p acted with ⟨-, rep, queue⟩ | ⟨-, same⟩
  · rw [queue]
    exact Nat.le_succ _
  · rw [same]

/-- It sends one message at most to the db thread, and none unless a peer has asked for it. -/
theorem act_p2p {event : Event X} (ofP2p : event.ofP2p = true)
    (acted : d.act p2pPort event = some (d', sends)) :
    ∃ reqs, d'.toDb = d.toDb ++ reqs ∧ reqs.length ≤ 1 ∧
      (reqs ≠ [] → ∃ msg, event = .answerP2p msg ∧ asks msg = true) := by
  obtain ⟨-, acted⟩ := act_running acted
  have same : ∀ {d' : Daemon}, d'.toDb = d.toDb → ∃ reqs, d'.toDb = d.toDb ++ reqs ∧
      reqs.length ≤ 1 ∧ (reqs ≠ [] → ∃ msg, event = .answerP2p msg ∧ asks msg = true) :=
    fun toDb => ⟨[], by simpa using toDb, by simp, by simp⟩
  cases event with
  | bcastPeers | bcastHashes | pass =>
      obtain ⟨-, shape⟩ := Option.ite_none_right_eq_some.mp acted
      cases shape
      exact same rfl
  | sendDbRequests =>
      obtain ⟨-, shape⟩ := Option.ite_none_right_eq_some.mp acted
      rcases settle_cases (Option.some.inj shape) with ⟨_, -, shape⟩ | ⟨f, rfl⟩
      · cases shape
        exact same rfl
      · exact same rfl
  | answerP2p msg =>
      obtain ⟨-, shape⟩ := Option.ite_none_right_eq_some.mp acted
      rcases settle_cases (Option.some.inj shape) with ⟨⟨p2p, reqs⟩, done, shape⟩ | ⟨f, rfl⟩
      · cases shape
        obtain ⟨one, asked⟩ := p2pAnswerP2p_length done
        exact ⟨reqs, rfl, one, fun some_ => ⟨msg, rfl, asked some_⟩⟩
      · exact same rfl
  | answerDb =>
      obtain ⟨-, shape⟩ := Option.ite_none_right_eq_some.mp acted
      split at shape
      · cases shape
      rcases settle_cases (Option.some.inj shape) with ⟨_, -, shape⟩ | ⟨f, rfl⟩
      · cases shape
        exact same rfl
      · exact same rfl
  | dbPeerOp | client cmd => cases ofP2p

theorem clientOp_length {s s' : Store} {cmd : ClientCmd X} {notes : List DbRep}
    (done : clientOp X s cmd = .ok (s', notes)) : notes.length = 1 := by
  rw [clientOp_notes done]
  rfl

theorem act_client {cmd : ClientCmd X} (acted : d.act p2pPort (.client cmd) = some (d', sends)) :
    d'.toDb = d.toDb ∧ ∃ notes, d'.toP2p = d.toP2p ++ notes ∧ notes.length ≤ 1 := by
  obtain ⟨-, acted⟩ := act_running acted
  rcases settle_cases (Option.some.inj acted) with ⟨⟨store, notes⟩, done, shape⟩ | ⟨f, rfl⟩
  · cases shape
    exact ⟨rfl, notes, rfl, (clientOp_length done).le⟩
  · exact ⟨rfl, [], by simp, by simp⟩

/-- A request of the p2p thread is answered with one message at most. -/
theorem dbPeerOp_length {s s' : Store} {req : DbReq} {reps : List DbRep}
    (done : Piac.dbPeerOp X s req = .ok (s', reps)) : reps.length ≤ 1 := by
  cases req with
  | get addr hashes =>
      simp only [Piac.dbPeerOp, bind_eq_ok, pure_eq_ok] at done
      obtain ⟨_, -, docs, -, shape⟩ := done
      cases shape
      exact Nat.le_refl _
  | ins docs =>
      simp only [Piac.dbPeerOp, bind_eq_ok] at done
      obtain ⟨_, -, done⟩ := done
      split at done
      · cases done
        exact Nat.zero_le _
      · simp only [bind_eq_ok, pure_eq_ok] at done
        obtain ⟨db, -, shape⟩ := done
        cases shape
        exact Nat.le_refl _

theorem act_dbPeerOp (acted : d.act p2pPort (.dbPeerOp : Event X) = some (d', sends)) :
    (∃ req, d.toDb = req :: d'.toDb) ∧ ∃ reps, d'.toP2p = d.toP2p ++ reps ∧ reps.length ≤ 1 := by
  obtain ⟨-, acted⟩ := act_running acted
  simp only [actRunning] at acted
  split at acted
  · cases acted
  rename_i req rest queue
  rcases settle_cases (Option.some.inj acted) with ⟨⟨store, reps⟩, done, shape⟩ | ⟨f, rfl⟩
  · cases shape
    exact ⟨⟨req, queue⟩, reps, rfl, dbPeerOp_length done⟩
  · exact ⟨⟨req, queue⟩, [], by simp, by simp⟩

/-- What else is on its way to the p2p thread does not matter to its calls. -/
theorem act_toP2p {event : Event X} (ofP2p : event.ofP2p = true) (reps : List DbRep)
    (acted : d.act p2pPort event = some (d', sends)) :
    { d with toP2p := d.toP2p ++ reps }.act p2pPort event =
      some ({ d' with toP2p := d'.toP2p ++ reps }, sends) := by
  obtain ⟨running, acted⟩ := act_running acted
  refine Option.ite_none_right_eq_some.mpr ⟨running, ?_⟩
  cases event with
  | bcastPeers =>
      obtain ⟨here, shape⟩ := Option.ite_none_right_eq_some.mp acted
      refine Option.ite_none_right_eq_some.mpr ⟨here, ?_⟩
      dsimp only
      generalize p2pBcastPeers p2pPort d.p2p = result at shape ⊢
      cases shape
      rfl
  | bcastHashes =>
      obtain ⟨here, shape⟩ := Option.ite_none_right_eq_some.mp acted
      refine Option.ite_none_right_eq_some.mpr ⟨here, ?_⟩
      dsimp only
      generalize p2pBcastHashes p2pPort d.store.myHashes d.p2p = result at shape ⊢
      cases shape
      rfl
  | sendDbRequests =>
      obtain ⟨here, shape⟩ := Option.ite_none_right_eq_some.mp acted
      refine Option.ite_none_right_eq_some.mpr ⟨here, ?_⟩
      dsimp only
      generalize p2pSendDbRequests p2pPort d.p2p = result at shape ⊢
      cases result <;> (cases shape; rfl)
  | answerP2p msg =>
      obtain ⟨here, shape⟩ := Option.ite_none_right_eq_some.mp acted
      refine Option.ite_none_right_eq_some.mpr ⟨here, ?_⟩
      dsimp only
      generalize p2pAnswerP2p X p2pPort d.store.myHashes d.p2p msg = result at shape ⊢
      cases result <;> (cases shape; rfl)
  | answerDb =>
      obtain ⟨here, shape⟩ := Option.ite_none_right_eq_some.mp acted
      refine Option.ite_none_right_eq_some.mpr ⟨here, ?_⟩
      split at shape
      · cases shape
      rename_i rep rest queue
      simp only [queue, List.cons_append]
      cases result : p2pAnswerDb X d.p2p rep <;>
        (simp only [settle, result] at shape ⊢; cases shape; rfl)
  | pass =>
      obtain ⟨here, shape⟩ := Option.ite_none_right_eq_some.mp acted
      refine Option.ite_none_right_eq_some.mpr ⟨here, ?_⟩
      cases shape
      rfl
  | dbPeerOp => cases ofP2p
  | client cmd => cases ofP2p

/-- What else is on its way to the db thread does not matter to its calls. -/
theorem act_toDb {event : Event X} (ofDb : event.ofP2p = false) (reqs : List DbReq)
    (acted : d.act p2pPort event = some (d', sends)) :
    { d with toDb := d.toDb ++ reqs }.act p2pPort event =
      some ({ d' with toDb := d'.toDb ++ reqs }, sends) := by
  obtain ⟨running, acted⟩ := act_running acted
  refine Option.ite_none_right_eq_some.mpr ⟨running, ?_⟩
  cases event with
  | dbPeerOp =>
      simp only [actRunning] at acted ⊢
      split at acted
      · cases acted
      rename_i req rest queue
      simp only [queue, List.cons_append]
      generalize Piac.dbPeerOp X d.store req = result at acted ⊢
      cases result <;> (cases acted; rfl)
  | client cmd =>
      simp only [actRunning] at acted ⊢
      generalize clientOp X d.store cmd = result at acted ⊢
      cases result <;> (cases acted; rfl)
  | bcastPeers | bcastHashes | sendDbRequests | answerP2p msg | answerDb | pass => cases ofDb

end Daemon

namespace Threads

/-! ## The daemon of both threads -/

/-- The daemon with what the threads hold already sent. -/
def sent (t : Threads) : Daemon :=
  { t.daemon with toDb := t.daemon.toDb ++ t.p2pSend, toP2p := t.daemon.toP2p ++ t.dbSend }

theorem drop_append_of_prefix {α : Type} {l l' : List α} (grown : ∃ m, l' = l ++ m) :
    l ++ l'.drop l.length = l' := by
  obtain ⟨m, rfl⟩ := grown
  rw [List.drop_left]

theorem ready_ofP2p {t : Threads} {event : Event X} (ready : t.ready event = true) :
    t.p2pSend = [] ∧ event.ofP2p = true := by
  cases event <;> simp_all [Threads.ready, Event.ofP2p]

/-- A call of the p2p thread is one of the daemon with what is held already sent. -/
theorem sent_holdP2p {p2pPort : Nat} {t : Threads} {event : Event X} {d : Daemon} {sends : Sends}
    (none_ : t.p2pSend = []) (ofP2p : event.ofP2p = true)
    (acted : t.daemon.act p2pPort event = some (d, sends)) :
    t.sent.act p2pPort event = some ((t.holdP2p d).sent, sends) := by
  obtain ⟨reqs, grown, -⟩ := Daemon.act_p2p ofP2p acted
  have later := Daemon.act_toP2p ofP2p t.dbSend acted
  simp only [sent, holdP2p, none_, List.append_nil, drop_append_of_prefix ⟨reqs, grown⟩]
  exact later

/-- **Each step of the two threads is an event of the daemon, or nothing to it.** -/
theorem refines {p2pPort capacity : Nat} {t t' : Threads} {l : ThreadLabel X}
    (stepped : t.step p2pPort capacity l = some t') :
    t'.sent = t.sent ∨ ∃ (event : Event X) (sends : Sends),
      t.sent.act p2pPort event = some (t'.sent, sends) := by
  cases l with
  | p2p event =>
      obtain ⟨ready, called⟩ := Option.ite_none_right_eq_some.mp stepped
      obtain ⟨⟨d, sends⟩, acted, rfl⟩ := Option.map_eq_some_iff.mp called
      obtain ⟨none_, ofP2p⟩ := ready_ofP2p ready
      exact .inr ⟨event, sends, sent_holdP2p none_ ofP2p acted⟩
  | client cmd =>
      obtain ⟨⟨none_, -⟩, called⟩ := Option.ite_none_right_eq_some.mp stepped
      obtain ⟨⟨d, sends⟩, acted, rfl⟩ := Option.map_eq_some_iff.mp called
      obtain ⟨-, notes, grown, -⟩ := Daemon.act_client acted
      refine .inr ⟨.client cmd, sends, ?_⟩
      have later := Daemon.act_toDb rfl t.p2pSend acted
      simp only [sent, holdDb, none_, List.append_nil, drop_append_of_prefix ⟨notes, grown⟩]
      exact later
  | dbPeerOp =>
      obtain ⟨⟨none_, -⟩, called⟩ := Option.ite_none_right_eq_some.mp stepped
      obtain ⟨⟨d, sends⟩, acted, rfl⟩ := Option.map_eq_some_iff.mp called
      obtain ⟨-, reps, grown, -⟩ := Daemon.act_dbPeerOp acted
      refine .inr ⟨.dbPeerOp, sends, ?_⟩
      have later := Daemon.act_toDb rfl t.p2pSend acted
      simp only [sent, holdDb, none_, List.append_nil, drop_append_of_prefix ⟨reps, grown⟩]
      exact later
  | p2pPush =>
      left
      cases pending : t.p2pSend with
      | nil => simp [step, pending] at stepped
      | cons req rest =>
          simp only [step, pending] at stepped
          obtain ⟨-, same⟩ := Option.ite_none_right_eq_some.mp stepped
          cases same
          simp [sent, pending]
  | dbPush =>
      left
      cases pending : t.dbSend with
      | nil => simp [step, pending] at stepped
      | cons rep rest =>
          simp only [step, pending] at stepped
          obtain ⟨-, same⟩ := Option.ite_none_right_eq_some.mp stepped
          cases same
          simp [sent, pending]
  | noClient =>
      obtain ⟨-, same⟩ := Option.ite_none_right_eq_some.mp stepped
      cases same
      exact .inl rfl
  | idle =>
      obtain ⟨-, same⟩ := Option.ite_none_right_eq_some.mp stepped
      cases same
      exact .inl rfl

/-! ## Room -/

/-- How many messages the db thread may still send before it receives one. -/
def budget (t : Threads) : Nat := (if t.dbPhase = .client then 1 else 0) + t.dbSend.length

/-- There is room for one more request, or for everything the db thread may send meanwhile. -/
def Room (capacity : Nat) (t : Threads) : Prop :=
  t.daemon.toDb.length < capacity ∨ t.daemon.toP2p.length + t.budget ≤ capacity

instance (capacity : Nat) (t : Threads) : Decidable (Room capacity t) :=
  inferInstanceAs (Decidable (_ ∨ _))

/-- A peer that asks for something is answered only if there is room. -/
def AnswersWithRoom (capacity : Nat) (t : Threads) : ThreadLabel X → Prop
  | .p2p (.answerP2p msg) => Daemon.asks msg = true → t.Room capacity
  | _ => True

instance (capacity : Nat) (t : Threads) (l : ThreadLabel X) :
    Decidable (AnswersWithRoom capacity t l) :=
  match l with
  | .p2p (.answerP2p _) => inferInstanceAs (Decidable (_ = _ → _))
  | .p2p .bcastPeers | .p2p .bcastHashes | .p2p .sendDbRequests | .p2p .answerDb | .p2p .pass
  | .p2p .dbPeerOp | .p2p (.client _) | .p2pPush | .client _ | .noClient | .dbPeerOp | .idle
  | .dbPush => .isTrue trivial

/-- No queue is overfull, and while the p2p thread waits for room there is room for what the db
thread may send. -/
structure Flows (capacity : Nat) (t : Threads) : Prop where
  p2pSend : t.p2pSend.length ≤ 1
  dbSend : t.dbSend.length ≤ 1
  toDb : t.daemon.toDb.length ≤ capacity
  toP2p : t.daemon.toP2p.length ≤ capacity
  room : t.p2pSend ≠ [] → t.Room capacity

theorem Flows.not_deadlocked {capacity : Nat} {t : Threads} (flows : t.Flows capacity) :
    ¬ t.Deadlocked capacity := by
  rintro ⟨p2p, toDb, db, toP2p⟩
  have pending := List.length_pos_of_ne_nil db
  rcases flows.room p2p with room | room
  · omega
  · unfold budget at room
    omega

theorem Flows.step {p2pPort capacity : Nat} {t t' : Threads} {l : ThreadLabel X}
    (pos : 1 ≤ capacity) (flows : t.Flows capacity) (ok : t.AnswersWithRoom capacity l)
    (stepped : t.step p2pPort capacity l = some t') : t'.Flows capacity := by
  obtain ⟨p2pSend, dbSend, toDb, toP2p, room⟩ := flows
  cases l with
  | p2p event =>
      obtain ⟨ready, called⟩ := Option.ite_none_right_eq_some.mp stepped
      obtain ⟨⟨d, sends⟩, acted, rfl⟩ := Option.map_eq_some_iff.mp called
      obtain ⟨-, ofP2p⟩ := ready_ofP2p ready
      obtain ⟨reqs, sent, one, asked⟩ := Daemon.act_p2p ofP2p acted
      have fewer := Daemon.act_toP2p_length ofP2p acted
      have held : d.toDb.drop t.daemon.toDb.length = reqs := by
        rw [sent]
        exact List.drop_left
      constructor
      case p2pSend =>
        show (d.toDb.drop t.daemon.toDb.length).length ≤ 1
        rw [held]
        exact one
      case dbSend => exact dbSend
      case toDb => exact toDb
      case toP2p => exact Nat.le_trans fewer toP2p
      case room =>
        intro some_
        change d.toDb.drop t.daemon.toDb.length ≠ [] at some_
        rw [held] at some_
        obtain ⟨msg, rfl, asks⟩ := asked some_
        show t.daemon.toDb.length < capacity ∨ d.toP2p.length + t.budget ≤ capacity
        rcases ok asks with room | room
        · exact .inl room
        · right
          omega
  | p2pPush =>
      cases pending : t.p2pSend with
      | nil => simp [Threads.step, pending] at stepped
      | cons req rest =>
          simp only [Threads.step, pending] at stepped
          obtain ⟨⟨-, less⟩, same⟩ := Option.ite_none_right_eq_some.mp stepped
          cases same
          rw [pending] at p2pSend
          have none_ : rest = [] := by simpa using p2pSend
          subst none_
          refine ⟨Nat.zero_le _, dbSend, ?_, toP2p, fun some_ => absurd rfl some_⟩
          show (t.daemon.toDb ++ [req]).length ≤ capacity
          simp only [List.length_append, List.length_singleton]
          omega
  | client cmd =>
      obtain ⟨⟨none_, here⟩, called⟩ := Option.ite_none_right_eq_some.mp stepped
      obtain ⟨⟨d, sends⟩, acted, rfl⟩ := Option.map_eq_some_iff.mp called
      obtain ⟨kept, notes, sent, one⟩ := Daemon.act_client acted
      have held : d.toP2p.drop t.daemon.toP2p.length = notes := by
        rw [sent]
        exact List.drop_left
      refine ⟨p2pSend, ?_, ?_, toP2p, fun some_ => ?_⟩
      · show (d.toP2p.drop t.daemon.toP2p.length).length ≤ 1
        rw [held]
        exact one
      · show d.toDb.length ≤ capacity
        rw [kept]
        exact toDb
      · -- the turn at the client socket is what the note was counted for
        have before := room some_
        simp only [Room, budget, none_, here, holdDb, held, kept, if_true, List.length_nil,
          reduceCtorEq, if_false] at before ⊢
        omega
  | noClient =>
      obtain ⟨⟨none_, here⟩, same⟩ := Option.ite_none_right_eq_some.mp stepped
      cases same
      refine ⟨p2pSend, dbSend, toDb, toP2p, fun some_ => ?_⟩
      have before := room some_
      simp only [Room, budget, none_, here, if_true, List.length_nil, reduceCtorEq, if_false]
        at before ⊢
      omega
  | dbPeerOp =>
      obtain ⟨⟨none_, here⟩, called⟩ := Option.ite_none_right_eq_some.mp stepped
      obtain ⟨⟨d, sends⟩, acted, rfl⟩ := Option.map_eq_some_iff.mp called
      obtain ⟨⟨req, taken⟩, reps, sent, one⟩ := Daemon.act_dbPeerOp acted
      have held : d.toP2p.drop t.daemon.toP2p.length = reps := by
        rw [sent]
        exact List.drop_left
      rw [taken] at toDb
      simp only [List.length_cons] at toDb
      refine ⟨p2pSend, ?_, ?_, toP2p, fun _ => .inl ?_⟩
      · show (d.toP2p.drop t.daemon.toP2p.length).length ≤ 1
        rw [held]
        exact one
      · show d.toDb.length ≤ capacity
        omega
      · -- what was taken leaves room
        show d.toDb.length < capacity
        omega
  | idle =>
      obtain ⟨⟨none_, here, empty⟩, same⟩ := Option.ite_none_right_eq_some.mp stepped
      cases same
      refine ⟨p2pSend, dbSend, toDb, toP2p, fun _ => .inl ?_⟩
      show t.daemon.toDb.length < capacity
      rw [empty]
      exact pos
  | dbPush =>
      cases pending : t.dbSend with
      | nil => simp [Threads.step, pending] at stepped
      | cons rep rest =>
          simp only [Threads.step, pending] at stepped
          obtain ⟨⟨-, less⟩, same⟩ := Option.ite_none_right_eq_some.mp stepped
          cases same
          rw [pending] at dbSend
          have none_ : rest = [] := by simpa using dbSend
          subst none_
          refine ⟨p2pSend, Nat.zero_le _, toDb, ?_, fun some_ => ?_⟩
          · show (t.daemon.toP2p ++ [rep]).length ≤ capacity
            simp only [List.length_append, List.length_singleton]
            omega
          · have before := room some_
            simp only [Room, budget, pending, List.length_append, List.length_cons,
              List.length_nil] at before ⊢
            omega

theorem Flows.start {capacity : Nat} {d : Daemon} (toDb : d.toDb = []) (toP2p : d.toP2p = []) :
    (Threads.start d).Flows capacity where
  p2pSend := Nat.zero_le _
  dbSend := Nat.zero_le _
  toDb := by
    show d.toDb.length ≤ capacity
    rw [toDb]
    exact Nat.zero_le _
  toP2p := by
    show d.toP2p.length ≤ capacity
    rw [toP2p]
    exact Nat.zero_le _
  room some_ := absurd rfl some_

theorem flows_of_run {p2pPort capacity : Nat} {peers : List Bytes} {db : Database}
    {ls : List (ThreadLabel X)} {t : Threads} (pos : 1 ≤ capacity)
    (run : Run (step p2pPort capacity) (AnswersWithRoom capacity)
      (Threads.start (.start X peers db)) ls t) : t.Flows capacity :=
  run.invariant (.start rfl rfl) fun _ _ _ flows ok stepped => flows.step pos ok stepped

/-- **The two threads do not wait for each other** in any run in which the p2p thread answers a
REQ or a DOC only with room for its request, or for all that the db thread may send meanwhile. -/
theorem no_deadlock {p2pPort capacity : Nat} {peers : List Bytes} {db : Database}
    {ls : List (ThreadLabel X)} {t : Threads} (pos : 1 ≤ capacity)
    (run : Run (step p2pPort capacity) (AnswersWithRoom capacity)
      (Threads.start (.start X peers db)) ls t) : ¬ t.Deadlocked capacity :=
  (flows_of_run pos run).not_deadlocked

/-- It applies to a pair with room for one message, a request of a peer, and a client. -/
theorem no_deadlock_one : ∃ (ls : List (ThreadLabel (reference true))) (t : Threads),
    Run (step 65090 1) (AnswersWithRoom 1)
      (Threads.start (.start (reference true) [localhost 65091] [])) ls t ∧
    t.p2pSend ≠ [] ∧ ¬ t.Deadlocked 1 := by
  let asked : ThreadLabel (reference true) := .p2p (.answerP2p (.req (localhost 65091)
    [bytes "0123456789ABCDEF0123456789ABCDEF"]))
  let round : List (ThreadLabel (reference true)) :=
    [.p2p .bcastPeers, .p2p .bcastHashes, .p2p .sendDbRequests]
  let ls : List (ThreadLabel (reference true)) :=
    round ++ [.noClient, asked, .p2pPush, .p2p .pass] ++ round ++ [asked]
  have run : Run (step 65090 1) (AnswersWithRoom 1)
      (Threads.start (.start (reference true) [localhost 65091] [])) ls
      ((exec (guarded (step 65090 1) (AnswersWithRoom 1))
        (Threads.start (.start (reference true) [localhost 65091] [])) ls).get
          (by decide +kernel)) := .checked _
  exact ⟨_, _, run, by decide +kernel, no_deadlock (by decide) run⟩

/-- A client's request that submits nothing sends its note all the same. -/
theorem step_client {p2pPort capacity : Nat} {t : Threads} (running : t.daemon.fault = none)
    (none_ : t.dbSend = []) (here : t.dbPhase = .client) :
    ∃ store, t.step p2pPort capacity (.client (.add [65] []) : ThreadLabel X) =
      some { t with daemon := { t.daemon with store }, dbPhase := .poll, dbSend := [.new] } := by
  have named : X.assert .author (([65] : Bytes) ≠ []) = .ok () :=
    Platform.assert_eq_ok.mpr (.inr (by decide))
  have done : clientOp X t.daemon.store (.add [65] []) =
      .ok (dbUpdateHashes X t.daemon.store, [.new]) := by
    simp only [clientOp, named]
    rfl
  refine ⟨dbUpdateHashes X t.daemon.store, ?_⟩
  rw [step, if_pos ⟨none_, here⟩]
  simp only [Daemon.act, running, if_true, Daemon.actRunning, Daemon.settle, done,
    Option.map_some, holdDb, List.drop_left]

/-- While the p2p thread waits without that room, the db thread may come to wait as well. -/
theorem crowded_deadlock {p2pPort capacity : Nat} {t : Threads} (running : t.daemon.fault = none)
    (waits : t.p2pSend ≠ []) (full : t.daemon.toDb.length = capacity)
    (fits : t.daemon.toP2p.length ≤ capacity) (one : t.dbSend.length ≤ 1)
    (crowded : ¬ t.Room capacity) :
    ∃ (ls : List (ThreadLabel X)) (t' : Threads),
      Run (step p2pPort capacity) (fun _ _ => True) t ls t' ∧ t'.Deadlocked capacity := by
  simp only [Room, not_or, Nat.not_le] at crowded
  have beyond := crowded.2
  unfold budget at beyond
  cases pending : t.dbSend with
  | nil =>
      rw [pending] at beyond
      have here : t.dbPhase = .client := by
        by_contra there
        rw [if_neg there, List.length_nil] at beyond
        omega
      rw [if_pos here, List.length_nil] at beyond
      obtain ⟨store, stepped⟩ := @step_client X p2pPort capacity t running pending here
      refine ⟨_, _, Run.snoc .nil trivial stepped, waits, full.ge, List.cons_ne_nil _ _, ?_⟩
      show capacity ≤ t.daemon.toP2p.length
      omega
  | cons rep rest =>
      rw [pending] at beyond one
      have last : rest = [] := by simpa using one
      subst last
      by_cases jammed : capacity ≤ t.daemon.toP2p.length
      · exact ⟨[], t, .nil, waits, full.ge, by simp [pending], jammed⟩
      have here : t.dbPhase = .client := by
        by_contra there
        rw [if_neg there, List.length_singleton] at beyond
        omega
      rw [if_pos here, List.length_singleton] at beyond
      let t₁ : Threads := { t with
        daemon := { t.daemon with toP2p := t.daemon.toP2p ++ [rep] }, dbSend := [] }
      have pushed : t.step p2pPort capacity (.dbPush : ThreadLabel X) = some t₁ := by
        simp only [step, pending]
        exact if_pos ⟨running, Nat.not_le.mp jammed⟩
      obtain ⟨store, stepped⟩ := @step_client X p2pPort capacity t₁ running rfl here
      refine ⟨_, _, Run.snoc (Run.snoc .nil trivial pushed) trivial stepped, waits, full.ge,
        List.cons_ne_nil _ _, ?_⟩
      show capacity ≤ (t.daemon.toP2p ++ [rep]).length
      rw [List.length_append, List.length_singleton]
      omega

/-! ## A deadlock for every capacity -/

/-- The peer that asks, for an ad that is not there. -/
def asker : Bytes := localhost 65091

def question : PeerMsg := .req asker [bytes "0123456789ABCDEF0123456789ABCDEF"]

def handedOn : DbReq := .get asker [bytes "0123456789ABCDEF0123456789ABCDEF"]

/-- A daemon with an empty database that knows the asker, both threads at rest. -/
def jam (reported : Bool) (reqs : List DbReq) (reps : List DbRep) : Threads :=
  ⟨⟨⟨[asker], [], false, false, false⟩, .poll, ⟨[], []⟩, reqs, reps, none⟩, reported, [], .client, []⟩

abbrev jamStep (capacity : Nat) (t : Threads) (l : ThreadLabel (reference true)) : Option Threads :=
  t.step 65090 capacity l

def loopRound : List (ThreadLabel (reference true)) :=
  [.p2p .bcastPeers, .p2p .bcastHashes, .p2p .sendDbRequests]

theorem answer_question (st : P2p) :
    p2pAnswerP2p (reference true) 65090 [] st question = .ok (st, [handedOn]) := rfl

/-- The p2p thread hands on a request while there is nothing for it. -/
theorem jam_fill {capacity n : Nat} (less : n < capacity) (reported : Bool) :
    exec (jamStep capacity) (jam reported (List.replicate n handedOn) [])
      ([.p2p (.answerP2p question), .p2pPush, .p2p .pass] ++ loopRound) =
      some (jam false (List.replicate (n + 1) handedOn) []) := by
  simp [exec, step, jam, loopRound, ready, Event.ofP2p, Daemon.act, Daemon.actRunning,
    answer_question, Daemon.settle, holdP2p, polled, less, p2pBcastPeers, p2pBcastHashes,
    p2pSendDbRequests, List.replicate_succ']

def nobodysAdd : ClientCmd (reference true) := .add [65] []

theorem clientOp_nobodysAdd : clientOp (reference true) ⟨[], []⟩ nobodysAdd = .ok (⟨[], []⟩, [.new]) :=
  rfl

theorem dbPeerOp_handedOn :
    dbPeerOp (reference true) ⟨[], []⟩ handedOn = .ok (⟨[], []⟩, [.put asker []]) := rfl

/-- What the db thread has sent in such a run. -/
def Told (rep : DbRep) : Prop := rep = .new ∨ rep = .put asker []

theorem answer_told {rep : DbRep} (told : Told rep) : ∃ flag sends,
    p2pAnswerDb (reference true) ⟨[asker], [], false, false, false⟩ rep =
      .ok (⟨[asker], [], false, flag, false⟩, sends) := by
  rcases told with rfl | rfl
  · exact ⟨_, _, rfl⟩
  · exact ⟨_, _, rfl⟩

/-- The db thread sends a note and takes a request; its answer to that waits. -/
theorem jam_dbTurn {n : Nat} {reps : List DbRep} (fits : reps.length ≤ n) (reported : Bool) :
    exec (jamStep (n + 1)) (jam reported (List.replicate (n + 1) handedOn) reps)
      [.client nobodysAdd, .dbPush, .dbPeerOp] =
      some { jam reported (List.replicate n handedOn) (reps ++ [.new]) with
        dbSend := [.put asker []] } := by
  simp [exec, step, jam, Daemon.act, Daemon.actRunning, clientOp_nobodysAdd, dbPeerOp_handedOn,
    Daemon.settle, holdDb, fits, List.replicate_succ]

/-- The p2p thread hands on a request and takes a message, and there is room for the answer. -/
theorem jam_p2pTurn {n : Nat} {rep : DbRep} {rest : List DbRep} (told : Told rep)
    (fits : rest.length ≤ n) (reported : Bool) :
    exec (jamStep (n + 1)) { jam reported (List.replicate n handedOn) (rep :: rest) with
        dbSend := [.put asker []] }
      ([.p2p (.answerP2p question), .p2pPush, .p2p .answerDb, .dbPush] ++ loopRound) =
      some (jam true (List.replicate (n + 1) handedOn) (rest ++ [.put asker []])) := by
  obtain ⟨flag, sends, answered⟩ := answer_told told
  cases flag <;>
    simp [exec, step, jam, loopRound, ready, Event.ofP2p, Daemon.act, Daemon.actRunning,
      answer_question, answered, Daemon.settle, holdP2p, polled, fits, p2pBcastPeers,
      p2pBcastHashes, p2pSendDbRequests, List.replicate_succ']

/-- A turn of each thread leaves one more message to the p2p thread than before. -/
theorem jam_press {n : Nat} {reps : List DbRep} (told : ∀ rep ∈ reps, Told rep)
    (fits : reps.length ≤ n) (reported : Bool) :
    ∃ ls reps', (∀ rep ∈ reps', Told rep) ∧ reps'.length = reps.length + 1 ∧
      exec (jamStep (n + 1)) (jam reported (List.replicate (n + 1) handedOn) reps) ls =
        some (jam true (List.replicate (n + 1) handedOn) reps') := by
  obtain ⟨rep, rest, queue⟩ := List.exists_cons_of_ne_nil (List.append_ne_nil_of_right_ne_nil reps
    (List.cons_ne_nil DbRep.new []))
  have all : ∀ rep' ∈ rep :: rest, Told rep' := by
    intro rep' member
    rw [← queue, List.mem_append, List.mem_singleton] at member
    exact member.elim (told rep') .inl
  have length : rest.length = reps.length := by
    have both := congrArg List.length queue
    simpa using both.symm
  refine ⟨[.client nobodysAdd, .dbPush, .dbPeerOp] ++
    ([.p2p (.answerP2p question), .p2pPush, .p2p .answerDb, .dbPush] ++ loopRound),
    rest ++ [.put asker []], ?_, by simp [length], ?_⟩
  · intro rep' member
    rw [List.mem_append, List.mem_singleton] at member
    exact member.elim (fun old => all rep' (List.mem_cons_of_mem _ old)) .inr
  · rw [exec_append, jam_dbTurn fits, Option.bind_some, queue]
    exact jam_p2pTurn (all rep List.mem_cons_self) (by omega) reported

/-- Both directions of the pair can be filled. -/
theorem jam_full (n k : Nat) (fits : k ≤ n + 1) :
    ∃ ls reported reps, (∀ rep ∈ reps, Told rep) ∧ reps.length = k ∧
      exec (jamStep (n + 1)) (jam false [] []) ls =
        some (jam reported (List.replicate (n + 1) handedOn) reps) := by
  induction k with
  | zero =>
      have filled : ∀ m, m ≤ n + 1 → ∃ ls, exec (jamStep (n + 1)) (jam false [] []) ls =
          some (jam false (List.replicate m handedOn) []) := by
        intro m
        induction m with
        | zero => exact fun _ => ⟨[], rfl⟩
        | succ m ih =>
            intro fits
            obtain ⟨ls, before⟩ := ih (by omega)
            refine ⟨ls ++ ([.p2p (.answerP2p question), .p2pPush, .p2p .pass] ++ loopRound), ?_⟩
            rw [exec_append, before]
            exact jam_fill (by omega) false
      obtain ⟨ls, full⟩ := filled (n + 1) (Nat.le_refl _)
      exact ⟨ls, false, [], fun _ none_ => absurd none_ List.not_mem_nil, rfl, full⟩
  | succ k ih =>
      obtain ⟨ls, reported, reps, told, length, before⟩ := ih (by omega)
      obtain ⟨ls', reps', told', length', press⟩ := @jam_press n reps told (by omega) reported
      refine ⟨ls ++ ls', true, reps', told', by omega, ?_⟩
      rw [exec_append, before]
      exact press

/-- **Whatever the capacity, the threads may come to wait for each other**: one peer asks for ads
while clients add and remove some. -/
theorem deadlocks (capacity : Nat) (pos : 1 ≤ capacity) :
    ∃ (ls : List (ThreadLabel (reference true))) (t : Threads),
      Run (step 65090 capacity) (fun _ _ => True)
        (Threads.start (.start (reference true) [asker] [])) ls t ∧ t.Deadlocked capacity := by
  obtain ⟨n, rfl⟩ := Nat.exists_eq_add_of_le' pos
  obtain ⟨ls, reported, reps, told, length, full⟩ := jam_full n (n + 1) (Nat.le_refl _)
  let last : List (ThreadLabel (reference true)) := [.p2p (.answerP2p question), .client nobodysAdd]
  have begins : exec (jamStep (n + 1)) (Threads.start (.start (reference true) [asker] []))
      loopRound = some (jam false [] []) := rfl
  let stuck : Threads := ⟨⟨⟨[asker], [], false, false, false⟩, .answered, ⟨[], []⟩,
    List.replicate (n + 1) handedOn, reps, none⟩, !reps.isEmpty, [handedOn], .poll, [.new]⟩
  have ends : exec (jamStep (n + 1)) (jam reported (List.replicate (n + 1) handedOn) reps) last =
      some stuck := by
    simp [exec, step, jam, last, stuck, ready, Event.ofP2p, Daemon.act, Daemon.actRunning,
      answer_question, clientOp_nobodysAdd, Daemon.settle, holdP2p, holdDb, polled]
  have whole : exec (jamStep (n + 1)) (Threads.start (.start (reference true) [asker] []))
      (loopRound ++ (ls ++ last)) = some stuck := by
    rw [exec_append, begins, Option.bind_some, exec_append, full]
    exact ends
  refine ⟨_, stuck, .of_exec whole fun _ _ _ => trivial, ?_⟩
  exact ⟨List.cons_ne_nil _ _, by simp [stuck], List.cons_ne_nil _ _, by simp [stuck, length]⟩

/-- The room of an inproc pair with the default high-water marks is not enough. -/
theorem deadlocks_default : ∃ (ls : List (ThreadLabel (reference true))) (t : Threads),
    Run (step 65090 2000) (fun _ _ => True)
      (Threads.start (.start (reference true) [asker] [])) ls t ∧ t.Deadlocked 2000 :=
  deadlocks 2000 (by decide)

end Threads

end Piac
