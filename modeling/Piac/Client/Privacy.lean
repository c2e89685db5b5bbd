/-
# Client.Privacy — who can read a message

The room of a message is the first one, in the order of the map, that has both users
among its members (`IsFirst`), whoever else is in it; a room key goes to the members
that the storage knows when the session is made. Members only come, so whoever has
been given the key of a room is one of its members (`KeysInRoom`).

* `Discreet`: the room has no third member, and the callback of a new one reads what was
  typed for it, which is a condition on the state before the step and on what the callback
  finds behind its references;
* `private_iff`: in every state that is reached, the room of a message and its key are
  private exactly then.
-/
import Piac.Client.Rooms

namespace Piac.Matrix

set_option autoImplicit false

open Piac.Theory.CppString Piac.Theory Piac.Theory.Transition

variable {O : Mtx} {w w' : World O}

/-! ## Shares -/

/-- A room key for a device of a user. -/
structure Share where
  user : Bytes
  dev : Bytes
  payload : RoomKey
  deriving DecidableEq

def Act.share : Act → Option Share
  | .toDevice _ user dev payload _ => some ⟨user, dev, payload⟩
  | _ => none

def Pending.share : Pending → Option Share
  | .claimKeys user dev payload => some ⟨user, dev, payload⟩
  | .createRoom .. => none

/-- The room keys that have been sent, and those that will be when a one-time key comes. -/
def World.shares (w : World O) : List Share :=
  w.sent.filterMap Act.share ++ w.pending.filterMap Pending.share

theorem World.mem_shares {s : Share} : s ∈ w.shares ↔
    (∃ act ∈ w.sent, act.share = some s) ∨ ∃ c ∈ w.pending, c.share = some s := by
  unfold World.shares
  rw [List.mem_append, List.mem_filterMap, List.mem_filterMap]

/-- What comes with a step is within its limits. -/
theorem shares_of_does {L : Limits} {s : Share} (does : Does L w w') (shared : s ∈ w'.shares) :
    s ∈ w.shares ∨ (∃ act, L.act act ∧ act.share = some s) ∨
      ∃ c, L.callback c ∧ c.share = some s := by
  obtain ⟨acts, sent, withinActs⟩ := does.sent
  obtain ⟨callbacks, pending, withinCallbacks⟩ := does.pending
  rw [World.mem_shares, sent, pending] at shared
  rw [World.mem_shares]
  obtain ⟨act, member, is⟩ | ⟨c, member, is⟩ := shared
  · rcases List.mem_append.mp member with old | new
    · exact .inl (.inl ⟨act, old, is⟩)
    · exact .inr (.inl ⟨act, withinActs act new, is⟩)
  · rcases List.mem_append.mp member with old | new
    · exact .inl (.inr ⟨c, old, is⟩)
    · exact .inr (.inr ⟨c, withinCallbacks c new, is⟩)

theorem shares_answer {i : Nat} {s : Share} (shared : s ∈ (w.answer i).shares) : s ∈ w.shares := by
  rw [World.mem_shares, World.sent_answer, World.pending_answer] at shared
  refine World.mem_shares.mpr (shared.imp_right fun ⟨c, member, is⟩ => ⟨c, ?_, is⟩)
  exact List.mem_of_mem_eraseIdx member

theorem shares_quiet {L : Limits} {s : Share} (does : Does L w w') (shared : s ∈ w'.shares)
    (acts : ∀ act, L.act act → act.Quiet) (callbacks : ∀ c, ¬ L.callback c) : s ∈ w.shares := by
  obtain old | ⟨act, within, is⟩ | ⟨c, within, -⟩ := shares_of_does does shared
  · exact old
  · have quiet := acts act within
    cases act <;> first | exact quiet.elim | cases is
  · exact absurd within (callbacks c)

/-- A message shares no key, and nobody joins a room. -/
theorem message_shares {usr ad msg : Bytes} (stepped : step w (.message usr ad msg) = some w') :
    w'.shares = w.shares ∧ w'.storage.members = w.storage.members := by
  obtain ⟨client, here, -, ⟨-, rfl⟩ | ⟨-, olm, session, -, -, rfl⟩⟩ := message_step stepped
  · refine ⟨?_, rfl⟩
    rw [World.shares, World.sent_invites here, World.pending_invites here, List.filterMap_append,
      List.filterMap_append]
    exact congrArg₂ _ (List.append_nil _) (List.append_nil _)
  · refine ⟨?_, rfl⟩
    obtain ⟨sessionId, sent⟩ := World.sent_messages here olm session
      (w.storage.inRoom w.matrixUser usr) msg
    rw [World.shares, sent, World.pending_messages, List.filterMap_append]
    exact congrArg (· ++ _) (List.append_nil _)

theorem isMember_congr (same : w'.storage.members = w.storage.members) (roomId user : Bytes) :
    w'.IsMember roomId user ↔ w.IsMember roomId user := by
  unfold World.IsMember
  rw [same]

/-- A new key goes to a member of its room, and to a device that is listed for the member. -/
def SharesInRoom (w w' : World O) : Prop :=
  (∀ r user, w.IsMember r user → w'.IsMember r user) ∧
    ∀ s ∈ w'.shares, s ∈ w.shares ∨
      w.IsMember s.payload.roomId s.user ∧ w.HasDevice s.user s.dev

/-- What a step shares, if it does not start a login. -/
theorem shares_step {e : Event O} (stepped : step w e = some w') :
    w'.shares = [] ∨ SharesInRoom w w' := by
  have still : SharesInRoom w w := ⟨fun _ _ => id, fun _ => .inl⟩
  have callback : e.Callback → SharesInRoom w w' := fun callback =>
    have does := (callback_step callback stepped).2
    ⟨does.members, fun s shared => .inl (shares_quiet does shared (fun _ => id) fun _ => id)⟩
  cases e with
  | opens server username password dbKey fresh =>
      rw [step_opens] at stepped
      split at stepped
      · cases stepped
        exact .inr still
      · split at stepped
        · cases stepped
          exact .inr still
        · split at stepped
          · cases stepped
          · cases stepped
            exact .inl rfl
  | loggedIn res => exact .inr (callback trivial)
  | keysUploaded login ok => exact .inr (callback trivial)
  | initialSynced retry res => exact .inr (callback trivial)
  | synced res => exact .inr (callback trivial)
  | queriedKeys res =>
      have does := (queriedKeys_step stepped).2
      exact .inr ⟨does.members, fun s shared =>
        .inl (shares_quiet does shared (fun _ => id) fun _ => id)⟩
  | message usr ad msg =>
      obtain ⟨shares, members⟩ := message_shares stepped
      exact .inr ⟨fun r user => (isMember_congr members r user).mpr, fun s shared =>
        .inl (shares ▸ shared)⟩
  | created i roomId fresh usr msg =>
      obtain ⟨-, -, -, -, does⟩ := created_step stepped
      refine .inr ⟨does.members, fun s shared => ?_⟩
      obtain old | ⟨act, rfl | ⟨data, rfl⟩ | within, is⟩ | ⟨c, within, is⟩ :=
        shares_of_does does shared
      · exact .inl (shares_answer old)
      · cases is
      · cases is
      · obtain ⟨user, dev, member, has, ⟨content, rfl⟩ | rfl⟩ := within
        · cases is
          exact .inr ⟨member, has⟩
        · cases is
      · obtain ⟨user, dev, member, has, rfl⟩ := within
        cases is
        exact .inr ⟨member, has⟩
  | claimed i res =>
      obtain ⟨member, dev, payload, -, waits, does⟩ := claimed_step stepped
      refine .inr ⟨does.members, fun s shared => .inl ?_⟩
      obtain old | ⟨act, ⟨content, rfl⟩, is⟩ | ⟨c, within, -⟩ := shares_of_does does shared
      · exact shares_answer old
      · cases is
        exact World.mem_shares.mpr (.inr ⟨_, List.mem_of_getElem? waits, rfl⟩)
      · exact within.elim
  | disconnect =>
      obtain ⟨-, rfl⟩ := disconnect_step stepped
      exact .inr still
  | closes =>
      obtain ⟨-, -, obj, olm, -, -, rfl⟩ := closes_step stepped
      exact .inr still

/-- Whoever has the key of a room is in the room. -/
def KeysInRoom (w : World O) : Prop := ∀ s ∈ w.shares, w.IsMember s.payload.roomId s.user

theorem keysInRoom_init (disk : Bytes → Option Bytes) : KeysInRoom (World.init O disk) := nofun

theorem keysInRoom_step {e : Event O} (inRoom : KeysInRoom w) (stepped : step w e = some w') :
    KeysInRoom w' := by
  intro s shared
  obtain none_ | ⟨grows, new⟩ := shares_step stepped
  · rw [none_] at shared
    exact absurd shared List.not_mem_nil
  · exact grows _ _ ((new s shared).elim (inRoom s) And.left)

/-! ## The room of a message -/

/-- Both users are members. -/
def BothIn (s : Storage O) (usr1 usr2 roomId : Bytes) : Prop :=
  ∃ users, s.members.get? roomId = some users ∧
    users.contains usr1 = true ∧ users.contains usr2 = true

/-- The first room of both users. -/
def IsFirst (s : Storage O) (usr1 usr2 roomId : Bytes) : Prop :=
  BothIn s usr1 usr2 roomId ∧ ∀ other, BothIn s usr1 usr2 other → roomId ≤ other

/-- **`in_room` finds the first room.** -/
theorem inRoom_eq {s : Storage O} {usr1 usr2 roomId : Bytes} (named : roomId ≠ []) :
    s.inRoom usr1 usr2 = roomId ↔ IsFirst s usr1 usr2 roomId := by
  have entry : ∀ room : Bytes × StdMap Bool,
      (s.members.entries.find? fun room => room.2.contains usr1 && room.2.contains usr2) = some room ↔
        s.members.get? room.1 = some room.2 ∧ (room.2.contains usr1 = true ∧
          room.2.contains usr2 = true) ∧ ∀ other, BothIn s usr1 usr2 other → room.1 ≤ other := by
    intro room
    rw [OrdMap.find?_eq_some_iff, OrdMap.get?_eq_some, Bool.and_eq_true]
    refine and_congr_right fun _ => and_congr_right fun _ => ⟨fun first other both => ?_,
      fun first other member both => ?_⟩
    · obtain ⟨users, found, inside⟩ := both
      exact first (other, users) (OrdMap.get?_eq_some.mp found) (Bool.and_eq_true _ _ ▸ inside)
    · exact first other.1 ⟨other.2, OrdMap.get?_eq_some.mpr member, (Bool.and_eq_true _ _).mp both⟩
  constructor
  · intro same
    subst same
    unfold Storage.inRoom at named ⊢
    cases found : s.members.entries.find? fun room =>
        room.2.contains usr1 && room.2.contains usr2 with
    | none =>
        rw [found] at named
        exact absurd rfl named
    | some room =>
        obtain ⟨there, both, first⟩ := (entry room).mp found
        exact ⟨⟨room.2, there, both⟩, first⟩
  · rintro ⟨⟨users, found, both⟩, first⟩
    unfold Storage.inRoom
    rw [(entry (roomId, users)).mpr ⟨found, both, first⟩]
    rfl

/-- Nobody but the sender and the user is known in the room. -/
def OnlyTwo (w : World O) (roomId usr : Bytes) : Prop :=
  ∀ user, w.IsMember roomId user → user = w.matrixUser ∨ user = usr

/-- Only the sender and the user are in the room, and only they have been given its key. -/
def Private (w : World O) (roomId usr : Bytes) : Prop :=
  OnlyTwo w roomId usr ∧ ∀ s ∈ w.shares, s.payload.roomId = roomId →
    s.user = w.matrixUser ∨ s.user = usr

/-- The user who is invited to the room of an event, or is in it, and the text that goes there. -/
def Event.handsOver : Event O → Option (Bytes × Bytes)
  | .message usr _ msg => some (usr, msg)
  | .created _ _ _ usr msg => some (usr, msg)
  | _ => none

/-- The message that is to go out in an event goes out, and is private. -/
def KeepsPrivate (w : World O) (e : Event O) (w' : World O) : Prop :=
  ∀ message roomId, goesOut w e = some (message, roomId) →
    e.handsOver = some message ∧ Private w' roomId message.1

/-- The first room of the two, or the one that has been created, has no third member; and the
callback of a new room reads the user and the text for which it was asked. -/
def Discreet (w : World O) : Event O → Prop
  | .message usr _ _ => ∀ roomId, roomId ≠ [] → IsFirst w.storage w.matrixUser usr roomId →
      OnlyTwo w roomId usr
  | .created i roomId _ usr msg => ∀ usr' msg', w.pending[i]? = some (.createRoom usr' msg') →
      usr = usr' ∧ msg = msg' ∧ OnlyTwo w roomId usr'
  | _ => True

/-! ## Runs -/

/-- After the steps that send a message, the members and the user are those before. -/
theorem goesOut_members {e : Event O} {message : Bytes × Bytes} {roomId : Bytes}
    (out : goesOut w e = some (message, roomId)) (stepped : step w e = some w') :
    w'.matrixUser = w.matrixUser ∧ ∀ r user, w'.IsMember r user ↔ w.IsMember r user := by
  cases e with
  | message usr ad msg =>
      refine ⟨?_, fun r user => isMember_congr (message_shares stepped).2 r user⟩
      obtain ⟨client, -, -, ⟨-, rfl⟩ | ⟨-, olm, session, -, -, rfl⟩⟩ := message_step stepped
      · rfl
      · rfl
  | created i room fresh usr msg =>
      obtain ⟨-, -, -, -, does⟩ := created_step stepped
      exact ⟨does.matrixUser, fun r user =>
        ⟨fun member => (does.joined r user member).elim id False.elim, does.members r user⟩⟩
  | _ => cases out

/-- What goes out is discreet exactly when it is what was typed and its room is discreet. -/
theorem discreet_iff {e : Event O} :
    Discreet w e ↔ ∀ message roomId, goesOut w e = some (message, roomId) →
      e.handsOver = some message ∧ OnlyTwo w roomId message.1 := by
  cases e with
  | message usr ad msg =>
      show (∀ roomId, _ → _ → _) ↔ ∀ message roomId,
        (if w.storage.inRoom w.matrixUser usr = [] then none
          else some ((usr, msg), w.storage.inRoom w.matrixUser usr)) = some (message, roomId) → _
      constructor
      · intro discreet message roomId out
        obtain ⟨named, same⟩ := Option.ite_none_left_eq_some.mp out
        cases same
        exact ⟨rfl, discreet _ named ((inRoom_eq named).mp rfl)⟩
      · intro discreet roomId named first
        have same := (inRoom_eq named).mpr first
        exact (discreet (usr, msg) roomId (by rw [same, if_neg named])).2
  | created i roomId fresh usr msg =>
      constructor
      · intro discreet message room out
        obtain ⟨typed, waits, same⟩ := Option.map_eq_some_iff.mp out
        cases same
        obtain ⟨c, there, is⟩ := Option.bind_eq_some_iff.mp waits
        cases c with
        | createRoom usr' msg' =>
            cases is
            obtain ⟨rfl, rfl, two⟩ := discreet usr' msg' there
            exact ⟨rfl, two⟩
        | claimKeys => cases is
      · intro discreet usr' msg' waits
        obtain ⟨reads, two⟩ := discreet (usr', msg') roomId (goesOut_created roomId fresh usr msg waits)
        cases reads
        exact ⟨rfl, rfl, two⟩
  | _ => exact iff_of_true trivial nofun

/-- **A message is private exactly when its room has no third member** and the callback of a new
room reads what was typed: in every state that a process reaches, whatever has happened in it. -/
theorem private_iff {disk : Bytes → Option Bytes} {events : List (Event O)} {e : Event O}
    (run : Run step (fun _ _ => True) (World.init O disk) events w)
    (stepped : step w e = some w') : KeepsPrivate w e w' ↔ Discreet w e := by
  have inRoom : KeysInRoom w := run.invariant (keysInRoom_init disk)
    fun _ _ _ inRoom _ stepped => keysInRoom_step inRoom stepped
  rw [discreet_iff]
  refine forall_congr' fun message => forall_congr' fun roomId => forall_congr' fun out => ?_
  obtain ⟨me, members⟩ := goesOut_members out stepped
  have same : OnlyTwo w' roomId message.1 ↔ OnlyTwo w roomId message.1 := by
    unfold OnlyTwo
    simp only [me, members]
  refine and_congr_right fun _ => ⟨fun private_ => same.mp private_.1, fun two =>
    ⟨same.mpr two, fun s shared room => ?_⟩⟩
  subst room
  exact same.mpr two s.user (keysInRoom_step inRoom stepped s shared)

/-! ## A third member -/

section ThirdMember

def carol : Bytes := bytes "@carol:hs"

/-- The room of Bob, Alice and Carol. -/
def group : World plain :=
  (exec step start (creates ++ [hears (bytes "!r") [carol]])).get (by decide +kernel)

/-- It applies to the first message in a room. -/
theorem private_iff_first : KeepsPrivate known (.created 0 (bytes "!r") (0 : Nat) alice (bytes "hi"))
    ((step known (.created 0 (bytes "!r") (0 : Nat) alice (bytes "hi"))).get (by decide +kernel)) := by
  refine (private_iff (.of_exec (Option.some_get _).symm fun _ _ _ => trivial)
    (Option.some_get _).symm).mpr ?_
  intro usr msg waits
  have typed : known.pending[0]? = some (.createRoom alice (bytes "hi")) := by decide +kernel
  cases typed.symm.trans waits
  refine ⟨rfl, rfl, ?_⟩
  rintro user ⟨users, found, inside⟩
  have only : known.storage.members.get? (bytes "!r") = some (OrdMap.empty.set bob true) := by
    decide +kernel
  cases Option.some.inj (found.symm.trans only)
  rw [OrdMap.contains, OrdMap.get?_set] at inside
  split at inside
  · rename_i same
    exact .inl (same.symm.trans (by decide +kernel))
  · cases inside

/-- Bob has written to Alice and then to Carol, and is in the room that he has asked for first. -/
def wroteTwice : World plain :=
  (exec step start (bobIn ++ [.message alice (bytes "bike") (bytes "hi"),
    .message carol (bytes "bike") (bytes "secret"), hears (bytes "!r") [bob]])).get (by decide +kernel)

/-- Carol has joined, and the next message to Alice goes to her too. And when the references of
the callback have come to mean the second message, Carol is invited to the room that Alice has
been invited to, and what she was written goes there. -/
theorem carol_reads : (¬ ∀ (events : List (Event plain)) (w w' : World plain) (e : Event plain),
      exec step start events = some w → step w e = some w' → KeepsPrivate w e w') ∧
    ∃ w', step wroteTwice (.created 0 (bytes "!r") (0 : Nat) carol (bytes "secret")) = some w' ∧
      .inviteUser (bytes "!r") carol ∈ w'.sent ∧
      w'.sent.getLast?.bind Act.ciphertext = some (bytes "!rsecret") ∧
      ¬ KeepsPrivate wroteTwice (.created 0 (bytes "!r") (0 : Nat) carol (bytes "secret")) w' := by
  constructor
  · intro all
    have runs : (step group (.message alice (bytes "bike") (bytes "sold"))).isSome = true := by
      decide +kernel
    have out : goesOut group (.message alice (bytes "bike") (bytes "sold")) =
        some ((alice, bytes "sold"), bytes "!r") := by decide +kernel
    have private_ := all _ group _ _ (Option.some_get _).symm (Option.some_get runs).symm _ _ out
    obtain ⟨me, members⟩ := goesOut_members out (Option.some_get runs).symm
    have joined : group.IsMember (bytes "!r") carol := Option.map_eq_some_iff.mp
      (show (group.storage.members.get? (bytes "!r")).map (OrdMap.contains · carol) = some true by
        decide +kernel)
    have other := private_.2.1 carol ((members _ _).mpr joined)
    rw [me] at other
    revert other
    decide +kernel
  · refine ⟨_, (Option.some_get (by decide +kernel)).symm, by decide +kernel, by decide +kernel, ?_⟩
    intro private_
    have out : goesOut wroteTwice (.created 0 (bytes "!r") (0 : Nat) carol (bytes "secret")) =
        some ((alice, bytes "hi"), bytes "!r") := by decide +kernel
    exact absurd (private_ _ _ out).1 (by decide +kernel)

end ThirdMember

end Piac.Matrix
