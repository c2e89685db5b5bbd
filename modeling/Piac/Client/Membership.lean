/-
# Client.Membership — the members of a room and its member events

A member event has a membership, which `parse_messages` does not look at: whoever is in one
becomes a member, and nobody is ever taken out. `StatedSync` is a sync response with the
memberships, `seen` what the client sees of it, and `changes` the member events in their
order; `Inside` is what the last of them says.

* `callback_isMember`: a response that is parsed to its end adds the users of its member
  events, in whichever of the three loops;
* `membership_follows`: the members are those who are inside, all along a run, exactly if
  nobody's last event is another than a join or an invite.
-/
import Piac.Theory.Latest
import Piac.Client.Parsing

namespace Piac.Matrix

set_option autoImplicit false

open Piac.Theory.CppString Piac.Theory Piac.Theory.Latest

/-! ## Events with a membership -/

/-- `mtx::events::state::Membership`. -/
inductive Membership where
  | join
  | invite
  | ban
  | leave
  | knock
  deriving DecidableEq

inductive StatedEvent where
  | encryption
  | member (stateKey : Bytes) (membership : Membership)
  | encrypted (sessionId senderKey ciphertext : Bytes)
  | other
  deriving DecidableEq

/-- What the client looks at. -/
def StatedEvent.seen : StatedEvent → RoomEvent
  | .encryption => .encryption
  | .member stateKey _ => .member stateKey
  | .encrypted sessionId senderKey ciphertext => .encrypted sessionId senderKey ciphertext
  | .other => .other

structure StatedRoom where
  roomId : Bytes
  state : List StatedEvent
  timeline : List StatedEvent

structure StatedSync where
  invite : List Bytes
  toDevice : List (Option OlmMessage)
  deviceOneTimeKeysCount : List Nat
  join : List StatedRoom
  nextBatch : Bytes

def StatedRoom.seen (room : StatedRoom) : JoinedRoom :=
  ⟨room.roomId, room.state.map StatedEvent.seen, room.timeline.map StatedEvent.seen⟩

def StatedSync.seen (res : StatedSync) : SyncResponse :=
  ⟨res.invite, res.toDevice, res.deviceOneTimeKeysCount, res.join.map StatedRoom.seen,
    res.nextBatch⟩

/-- A member event: the room and the user, and the membership. -/
abbrev Change := (Bytes × Bytes) × Membership

def StatedEvent.change (roomId : Bytes) : StatedEvent → Option Change
  | .member stateKey membership => some ((roomId, stateKey), membership)
  | _ => none

/-- The member events, the state before the timeline. -/
def StatedSync.changes (res : StatedSync) : List Change :=
  res.join.flatMap fun room => (room.state ++ room.timeline).filterMap (·.change room.roomId)

/-- The last member event of a user in a room is a join or an invite. -/
def Inside (history : List Change) (roomId user : Bytes) : Prop :=
  latest (roomId, user) history = some .join ∨ latest (roomId, user) history = some .invite

variable {O : Mtx}

/-! ## One part -/

theorem isMember_added (w : World O) (roomId user : Bytes) :
    World.IsMember { w with storage := w.storage.addMember roomId user } roomId user := by
  refine ⟨_, OrdMap.get?_set_self _ _ _, ?_⟩
  rw [OrdMap.contains, OrdMap.get?_set_self]
  rfl

theorem memberEvent_isMember {w : World O} (ready : w.Ready) (roomId user : Bytes) :
    (left ((memberEvent roomId user : Op O Unit).run w)).IsMember roomId user := by
  have asked := request_run (.queryKeys user) ready.1
  have ran : (memberEvent roomId user : Op O Unit).run w = .ok () { w.ask (.queryKeys user) with
      storage := (w.ask (.queryKeys user)).storage.addMember roomId user } := by
    unfold memberEvent getDeviceKeys
    rw [run_bind_ok asked]
    rfl
  rw [ran]
  exact isMember_added _ roomId user

/-- A part adds its user, and nobody else. -/
theorem handle_isMember {w : World O} (ready : w.Ready) (item : SyncItem) (roomId user : Bytes) :
    (left ((item.handle : Op O Unit).run w)).IsMember roomId user ↔
      w.IsMember roomId user ∨ item.Adds roomId user := by
  have does : Does ⟨Act.Quiet, fun _ => False, fun r u => item.Adds r u, fun _ _ => False⟩ w
      (left ((item.handle : Op O Unit).run w)) :=
    handle_does (fun _ => Act.Parsing.quiet) (fun _ _ => id) w
  refine ⟨does.joined roomId user, ?_⟩
  rintro (old | added)
  · exact does.members roomId user old
  · cases item with
    | state r e =>
        obtain ⟨rfl, rfl⟩ := added
        exact memberEvent_isMember ready r user
    | timeline r e =>
        obtain ⟨rfl, rfl⟩ := added
        exact memberEvent_isMember ready r user
    | invite | toDevice | oneTimeKeys => cases added

theorem attempts_isMember {w : World O} (ready : w.Ready) (items : List SyncItem)
    (roomId user : Bytes) :
    (attempts SyncItem.handle items w).IsMember roomId user ↔
      w.IsMember roomId user ∨ ∃ item ∈ items, item.Adds roomId user := by
  induction items generalizing w with
  | nil => simp [attempts]
  | cons item rest ih =>
      rw [attempts, ih (handle_keeps item w ready), handle_isMember ready, or_assoc]
      simp only [List.mem_cons, exists_eq_or_imp]

/-! ## One callback -/

theorem seen_member {e : StatedEvent} {roomId user : Bytes} : e.seen = .member user ↔
    ∃ membership, e.change roomId = some ((roomId, user), membership) := by
  cases e with
  | member stateKey membership => simp [StatedEvent.seen, StatedEvent.change]
  | encryption | encrypted | other => simp [StatedEvent.seen, StatedEvent.change]

/-- The parts that add a user are the member events. -/
theorem adds_iff (res : StatedSync) (roomId user : Bytes) :
    (∃ item ∈ res.seen.items, item.Adds roomId user) ↔
      ∃ membership, ((roomId, user), membership) ∈ res.changes := by
  have events : (∃ item ∈ res.seen.items, item.Adds roomId user) ↔ ∃ room ∈ res.join,
      room.roomId = roomId ∧ ∃ e ∈ room.state ++ room.timeline, e.seen = .member user := by
    constructor
    · rintro ⟨item, member, adds⟩
      rcases List.mem_append.mp member with invited | rest
      · obtain ⟨_, -, rfl⟩ := List.mem_map.mp invited
        cases adds
      rcases List.mem_append.mp rest with told | rest
      · obtain ⟨_, -, rfl⟩ := List.mem_map.mp told
        cases adds
      rcases List.mem_append.mp rest with counted | rest
      · obtain ⟨_, -, rfl⟩ := List.mem_map.mp counted
        cases adds
      obtain ⟨_, listed, inside⟩ := List.mem_flatMap.mp rest
      obtain ⟨room, joined, rfl⟩ := List.mem_map.mp listed
      rcases List.mem_append.mp inside with state | timeline
      · obtain ⟨_, seen, rfl⟩ := List.mem_map.mp state
        obtain ⟨e, here, rfl⟩ := List.mem_map.mp seen
        exact ⟨room, joined, adds.1, e, List.mem_append_left _ here, adds.2⟩
      · obtain ⟨_, seen, rfl⟩ := List.mem_map.mp timeline
        obtain ⟨e, here, rfl⟩ := List.mem_map.mp seen
        exact ⟨room, joined, adds.1, e, List.mem_append_right _ here, adds.2⟩
    · rintro ⟨room, joined, same, e, listed, its⟩
      have ofRoom : ∀ item ∈ room.seen.items, item ∈ res.seen.items := fun item inside =>
        List.mem_append_right _ (List.mem_append_right _ (List.mem_append_right _
          (List.mem_flatMap.mpr ⟨_, List.mem_map_of_mem joined, inside⟩)))
      rcases List.mem_append.mp listed with state | timeline
      · exact ⟨_, ofRoom _ (List.mem_append_left _
          (List.mem_map_of_mem (List.mem_map_of_mem state))), same, its⟩
      · exact ⟨_, ofRoom _ (List.mem_append_right _
          (List.mem_map_of_mem (List.mem_map_of_mem timeline))), same, its⟩
  rw [events]
  unfold StatedSync.changes
  simp only [List.mem_flatMap, List.mem_filterMap]
  constructor
  · rintro ⟨room, joined, rfl, e, listed, its⟩
    obtain ⟨membership, change⟩ := seen_member.mp its
    exact ⟨membership, room, joined, e, listed, change⟩
  · rintro ⟨membership, room, joined, e, listed, change⟩
    have same : room.roomId = roomId := by
      cases e with
      | member => exact congrArg (fun c : Change => c.1.1) (Option.some.inj change)
      | encryption | encrypted | other => cases change
    subst same
    exact ⟨room, joined, rfl, e, listed, seen_member.mpr ⟨membership, change⟩⟩

/-- A callback of a sync request that has succeeded, the first or a later one. -/
structure SyncCallback where
  initial : Bool
  res : StatedSync

def SyncCallback.program (cb : SyncCallback) : Op O Unit :=
  if cb.initial then initialSynced false (some cb.res.seen) else synced (some cb.res.seen)

/-- What follows the parsing adds nobody else. -/
theorem parsed_then {w : World O} {res : StatedSync} {rest : Op O Unit} (ready : w.Ready)
    (sound : AllSound w res.seen)
    (does : Moves (Does ⟨Act.Quiet, fun _ => False,
      fun r u => ∃ item ∈ res.seen.items, item.Adds r u, fun _ _ => False⟩) rest)
    (roomId user : Bytes) :
    (left ((parseMessages res.seen >>= fun _ => rest).run w)).IsMember roomId user ↔
      w.IsMember roomId user ∨ ∃ membership, ((roomId, user), membership) ∈ res.changes := by
  obtain ⟨t, ran⟩ := (parseMessages_iff res.seen ready).mpr sound
  have parsed := attempts_isMember ready res.seen.items roomId user
  rw [← parseMessages_run ran] at parsed
  rw [run_bind_ok ran, ← adds_iff, ← parsed]
  have rest_ := does t
  constructor
  · intro member
    rcases rest_.joined roomId user member with old | adds
    · exact old
    · exact parsed.mpr (.inr adds)
  · exact rest_.members roomId user

/-- **A response that is parsed to its end adds the users of its member events.** -/
theorem callback_isMember {w : World O} {cb : SyncCallback} (ready : w.Ready)
    (running : w.shutdown = false) (sound : AllSound w cb.res.seen) (roomId user : Bytes) :
    (left ((cb.program : Op O Unit).run w)).IsMember roomId user ↔
      w.IsMember roomId user ∨ ∃ membership, ((roomId, user), membership) ∈ cb.res.changes := by
  have goes : ¬ w.shutdown = true := by rw [running]; nofun
  unfold SyncCallback.program
  split
  · show (left ((initialSynced false (some cb.res.seen) : Op O Unit).run w)).IsMember _ _ ↔ _
    unfold initialSynced
    dsimp only
    rw [run_get_bind, if_neg goes]
    refine parsed_then ready sound ?_ roomId user
    refine .bind (.forM fun room joined => .forM fun e listed => ?_) fun _ =>
      syncSince_does trivial
    split
    · rename_i stateKey
      refine memberEvent_does (fun _ => Act.Parsing.quiet) ⟨.state room.roomId (.member stateKey),
        ?_, rfl, rfl⟩
      refine List.mem_append_right _ (List.mem_append_right _ (List.mem_append_right _ ?_))
      exact List.mem_flatMap.mpr ⟨room, joined, List.mem_append_left _
        (List.mem_map_of_mem listed)⟩
    · exact .pure _
  · show (left ((synced (some cb.res.seen) : Op O Unit).run w)).IsMember _ _ ↔ _
    unfold synced
    dsimp only
    rw [run_get_bind, if_neg goes]
    exact parsed_then ready sound (syncSince_does trivial) roomId user

/-! ## Runs -/

theorem program_does (cb : SyncCallback) : Moves (Does quiet) (cb.program : Op O Unit) := by
  unfold SyncCallback.program
  split
  · exact initialSynced_does _ _
  · exact synced_does _

/-- The state after the callbacks of some responses. -/
def syncedAll (callbacks : List SyncCallback) (w : World O) : World O :=
  attempts SyncCallback.program callbacks w

/-- The member events of the responses, in their order. -/
def history (callbacks : List SyncCallback) : List Change :=
  callbacks.flatMap fun cb => cb.res.changes

/-- Each response is sound in the state that the ones before it leave. -/
def SoundRun (w : World O) (callbacks : List SyncCallback) : Prop :=
  ∀ before cb after, callbacks = before ++ cb :: after →
    AllSound (syncedAll before w) cb.res.seen

/-- Along a run whoever had a member event is a member. -/
theorem syncedAll_isMember {w : World O} {callbacks : List SyncCallback} (ready : w.Ready)
    (running : w.shutdown = false) (sound : SoundRun w callbacks) (roomId user : Bytes) :
    (syncedAll callbacks w).IsMember roomId user ↔
      w.IsMember roomId user ∨ ∃ membership, ((roomId, user), membership) ∈ history callbacks := by
  induction callbacks generalizing w with
  | nil => simp [syncedAll, attempts, history]
  | cons cb rest ih =>
      obtain ⟨here, later⟩ := forall_split_cons.mp sound
      have does := program_does cb w
      have first := callback_isMember ready running here roomId user
      have next := ih (does.ready ready) (does.shutdown.trans running) later
      show (syncedAll rest (left (cb.program.run w))).IsMember roomId user ↔ _
      have whole : history (cb :: rest) = cb.res.changes ++ history rest := List.flatMap_cons
      rw [next, first, whole, or_assoc]
      simp only [List.mem_append, exists_or]

/-- Membership follows the room if nobody's last event is another than a join or an invite. -/
theorem inside_iff {history : List Change} {roomId user : Bytes}
    (stays : ∀ membership, latest (roomId, user) history = some membership →
      membership = .join ∨ membership = .invite) :
    Inside history roomId user ↔ ∃ membership, ((roomId, user), membership) ∈ history := by
  rw [← latest_isSome]
  constructor
  · rintro (join | invite)
    · rw [join]
      rfl
    · rw [invite]
      rfl
  · intro some_
    obtain ⟨membership, last⟩ := Option.isSome_iff_exists.mp some_
    rcases stays membership last with rfl | rfl
    · exact .inl last
    · exact .inr last

/-- **Membership follows the room exactly if** nobody's last event is another than a join or an
invite: in a run of responses that are parsed to their end, from a storage without members,
the members of each room are in every state those who are inside if and only if in every
state each last member event is a join or an invite. -/
theorem membership_follows (w : World O) (ready : w.Ready) (running : w.shutdown = false)
    (fresh : w.storage.members = .empty) (callbacks : List SyncCallback)
    (sound : SoundRun w callbacks) :
    (∀ before after, callbacks = before ++ after → ∀ roomId user,
        (syncedAll before w).IsMember roomId user ↔ Inside (history before) roomId user) ↔
      ∀ before after, callbacks = before ++ after → ∀ roomId user membership,
        latest (roomId, user) (history before) = some membership →
          membership = .join ∨ membership = .invite := by
  have members : ∀ before after, callbacks = before ++ after → ∀ roomId user,
      (syncedAll before w).IsMember roomId user ↔
        ∃ membership, ((roomId, user), membership) ∈ history before := by
    intro before after split roomId user
    have soundBefore : SoundRun w before := fun first cb rest eq =>
      sound first cb (rest ++ after) (by rw [split, eq, List.append_assoc, List.cons_append])
    rw [syncedAll_isMember ready running soundBefore]
    refine or_iff_right ?_
    rintro ⟨users, found, -⟩
    rw [fresh] at found
    cases found
  constructor
  · intro follows before after split roomId user membership last
    have member := (members before after split roomId user).mpr ⟨membership, mem_of_latest last⟩
    rcases (follows before after split roomId user).mp member with join | invite
    · exact .inl (Option.some.inj (last.symm.trans join))
    · exact .inr (Option.some.inj (last.symm.trans invite))
  · intro stays before after split roomId user
    rw [members before after split, inside_iff (stays before after split roomId user)]

/-! ## Leaving -/

/-- A later response with one member event of bob. -/
def change (membership : Membership) : SyncCallback :=
  ⟨false, [], [], [], [⟨bytes "!room", [], [.member (bytes "@bob:hs") membership]⟩], []⟩

theorem sound_changes (memberships : List Membership) (w : World O) :
    SoundRun w (memberships.map change) := by
  intro before cb after split before' item after' split'
  have inside : cb ∈ memberships.map change := by
    rw [split]
    exact List.mem_append_right _ List.mem_cons_self
  obtain ⟨membership, -, rfl⟩ := List.mem_map.mp inside
  have here : item ∈ (change membership).res.seen.items := by
    rw [split']
    exact List.mem_append_right _ List.mem_cons_self
  cases List.mem_singleton.mp here
  trivial

theorem membership_follows_join :
    (syncedAll [change .invite, change .join] (online plain (1 : Nat))).IsMember
        (bytes "!room") (bytes "@bob:hs") ↔
      Inside (history [change .invite, change .join]) (bytes "!room") (bytes "@bob:hs") := by
  have follows := (membership_follows (online plain (1 : Nat)) ⟨rfl, rfl⟩ rfl rfl
    ([.invite, .join].map change) (sound_changes _ _)).mpr (by
      intro before after split roomId user membership last
      have event := mem_of_latest last
      obtain ⟨cb, inside, member⟩ := List.mem_flatMap.mp event
      have listed : cb ∈ [Membership.invite, .join].map change := by
        rw [split]
        exact List.mem_append_left _ inside
      rcases List.mem_cons.mp listed with rfl | listed
      · cases List.mem_singleton.mp member
        exact .inr rfl
      · cases List.mem_singleton.mp listed
        cases List.mem_singleton.mp member
        exact .inl rfl)
  exact follows _ [] rfl (bytes "!room") (bytes "@bob:hs")

/-- Bob joins and leaves, and is a member still. -/
theorem leaver_stays :
    (syncedAll [change .join, change .leave] (online plain (1 : Nat))).IsMember
        (bytes "!room") (bytes "@bob:hs") ∧
      ¬ ∀ (callbacks : List SyncCallback) roomId user,
        (syncedAll callbacks (online plain (1 : Nat))).IsMember roomId user ↔
          Inside (history callbacks) roomId user := by
  have member : (syncedAll [change .join, change .leave] (online plain (1 : Nat))).IsMember
      (bytes "!room") (bytes "@bob:hs") :=
    (syncedAll_isMember ⟨rfl, rfl⟩ rfl (sound_changes [.join, .leave] _) _ _).mpr
      (.inr ⟨.join, List.mem_cons_self⟩)
  refine ⟨member, fun all => ?_⟩
  have inside := (all [change .join, change .leave] _ _).mp member
  exact absurd inside (by
    unfold Inside
    decide +kernel)

end Piac.Matrix
