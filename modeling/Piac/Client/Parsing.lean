/-
# Client.Parsing — a sync response to its end

`items` are the parts of a response in the order in which `parse_messages` comes to them,
and `SyncItem.handle` what it does with one. A part that is malformed should end no more
than itself; the code catches the JSON exceptions of a to-device message, and nothing else.

* `parsed_iff`: the parts of a response are all handled, and the message thread is told,
  exactly if each of them is `Sound` in the state it is reached in;
* `queriedKeys_iff`: the answer to a key query is handled exactly if no verification
  throws and no device is stored without its ed25519 key.
-/
import Piac.Client.Devices

namespace Piac.Matrix

set_option autoImplicit false

open Piac.Theory.CppString Piac.Theory

variable {O : Mtx}

/-! ## Parts of a response -/

inductive SyncItem where
  | invite (roomId : Bytes)
  | toDevice (msg : Option OlmMessage)
  | oneTimeKeys (count : Nat)
  | state (roomId : Bytes) (e : RoomEvent)
  | timeline (roomId : Bytes) (e : RoomEvent)

/-- One turn of `handle_to_device_msgs`. -/
def handleToDeviceMsg : Option OlmMessage → Op O Unit
  | none => return
  | some msg => tryCatch (decryptOlmMessage msg) fun e => if e = .json then return else throw e

def SyncItem.handle : SyncItem → Op O Unit
  | .invite roomId => request (.joinRoom roomId)
  | .toDevice msg => handleToDeviceMsg msg
  | .oneTimeKeys count => refillOneTimeKeys count
  | .state roomId e => stateEvent roomId e
  | .timeline roomId e => timelineEvent roomId e

def JoinedRoom.items (room : JoinedRoom) : List SyncItem :=
  room.state.map (.state room.roomId) ++ room.timeline.map (.timeline room.roomId)

def SyncResponse.items (res : SyncResponse) : List SyncItem :=
  res.invite.map .invite ++ (res.toDevice.map .toDevice ++
    (res.deviceOneTimeKeysCount.map .oneTimeKeys ++ res.join.flatMap JoinedRoom.items))

/-- `parse_messages` with the notes to the message thread. -/
def parseMessagesNoted (res : SyncResponse) : EStateM Thrown (World O × Nat) Unit := fun s =>
  match (parseMessages res).run s.1 with
  | .ok _ w => .ok () (w, s.2 + 1)
  | .error e w => .error e (w, s.2)

/-- Every part is handled, whatever became of those before it, and one note is sent. -/
def ParsedToTheEnd (w : World O) (res : SyncResponse) : Prop :=
  ∀ notes, (parseMessagesNoted res).run (w, notes) =
    .ok () (attempts SyncItem.handle res.items w, notes + 1)

theorem forM_flatMap {γ δ : Type} (g : γ → List δ) (f : δ → Op O Unit) (xs : List γ) :
    (xs.flatMap g).forM f = xs.forM fun x => (g x).forM f := by
  induction xs with
  | nil => rfl
  | cons x xs ih =>
      rw [List.flatMap_cons]
      show forM (g x ++ xs.flatMap g) f = (g x).forM f >>= fun _ => xs.forM fun x => (g x).forM f
      rw [List.forM_append, ← ih]
      rfl

theorem forM_map {γ δ : Type} (g : γ → δ) (f : δ → Op O Unit) (xs : List γ) :
    (xs.map g).forM f = xs.forM fun x => f (g x) := List.forM_map

/-- `parse_messages` is one loop over the parts. -/
theorem parseMessages_eq (res : SyncResponse) :
    (parseMessages res : Op O Unit) = res.items.forM SyncItem.handle := by
  have append (xs ys : List SyncItem) : (xs ++ ys).forM (SyncItem.handle : SyncItem → Op O Unit) =
      (xs.forM SyncItem.handle >>= fun _ => ys.forM SyncItem.handle) := List.forM_append
  unfold SyncResponse.items
  rw [append, append, append, forM_map, forM_map, forM_map, forM_flatMap]
  have room (room : JoinedRoom) : room.items.forM (SyncItem.handle : SyncItem → Op O Unit) =
      (do
        room.state.forM (stateEvent room.roomId)
        room.timeline.forM (timelineEvent room.roomId)) := by
    unfold JoinedRoom.items
    rw [append, forM_map, forM_map]
    rfl
  simp only [room]
  rfl

/-! ## Sound parts -/

/-- What olm is asked about a message of type 0 for us does not throw. -/
def Opens (w : World O) (account : O.Account) (senderKey body : Bytes) : Prop :=
  ∃ account' session, O.createInboundSession account body = some (account', session) ∧
    (O.matchesInboundSessionFrom session senderKey body = true →
      ∃ session' plaintext, O.decryptMessage session 0 body = some (session', plaintext) ∧
        (O.isJson plaintext = true → ∀ roomId sessionId sessionKey,
          O.roomKeyOf plaintext = some (roomId, sessionId, sessionKey) →
            w.storage.inboundGroupSessions.contains
                (Storage.inboundKey roomId sessionId senderKey) = true ∨
              (O.initInboundGroupSession sessionKey).isSome = true))

/-- A part that is well-formed: what is encrypted for us can be opened, and an encrypted event
of a known session is decrypted to something with a body. -/
def SyncItem.Sound (w : World O) : SyncItem → Prop
  | .toDevice (some msg) => ∀ olm, w.olmclient = some olm → ∀ cipher ∈ msg.ciphertext.entries,
      cipher.1 = (O.identityKeys olm.account).curve25519 → cipher.2.2 = 0 →
        Opens w olm.account msg.senderKey cipher.2.1
  | .timeline roomId (.encrypted sessionId senderKey ciphertext) => ∀ session,
      w.storage.inboundGroupSessions.get? (Storage.inboundKey roomId sessionId senderKey) =
          some session →
        (O.decryptGroupMessage session ciphertext).isSome = true ∧
          (O.bodyOf session ciphertext).isSome = true
  | _ => True

/-- A program ends, or with a JSON exception. -/
def Passes (p : Op O Unit) (w : World O) : Prop :=
  ∃ t, p.run w = .ok () t ∨ p.run w = .error .json t

theorem passes_ok {p : Op O Unit} {w t : World O} (ran : p.run w = .ok () t) : Passes p w :=
  ⟨t, .inl ran⟩

theorem passes_bind {α : Type} {p : Op O α} {f : α → Op O Unit} {w t : World O} {a : α}
    (first : p.run w = .ok a t) : Passes (p >>= f) w ↔ Passes (f a) t := by
  unfold Passes
  rw [run_bind_ok first]

theorem not_passes_olm (w : World O) : ¬ Passes (throw .olm : Op O Unit) w := by
  rintro ⟨t, ran | ran⟩
  · cases ran
  · cases ran

theorem keepRoomKey_passes {w : World O} {senderKey plaintext : Bytes} :
    Passes (keepRoomKey senderKey plaintext) w ↔ ∀ roomId sessionId sessionKey,
      O.roomKeyOf plaintext = some (roomId, sessionId, sessionKey) →
        w.storage.inboundGroupSessions.contains
            (Storage.inboundKey roomId sessionId senderKey) = true ∨
          (O.initInboundGroupSession sessionKey).isSome = true := by
  unfold keepRoomKey
  cases key : O.roomKeyOf plaintext with
  | none => exact iff_of_true ⟨w, .inr rfl⟩ nofun
  | some roomKey =>
      obtain ⟨roomId, sessionId, sessionKey⟩ := roomKey
      simp only [Option.some.injEq, Prod.mk.injEq, and_imp]
      unfold Passes
      rw [run_get_bind]
      by_cases known : w.storage.inboundGroupSessions.contains
        (Storage.inboundKey roomId sessionId senderKey) = true
      · rw [known]
        refine iff_of_true ⟨w, .inl rfl⟩ ?_
        rintro _ _ _ rfl rfl rfl
        exact .inl known
      · rw [Bool.not_eq_true] at known
        rw [known]
        cases made : O.initInboundGroupSession sessionKey with
        | none =>
            refine iff_of_false (not_passes_olm w) fun all => ?_
            · rcases all _ _ _ rfl rfl rfl with there | some_
              · rw [known] at there
                cases there
              · rw [made] at some_
                cases some_
        | some megolm =>
            refine iff_of_true ⟨_, .inl rfl⟩ ?_
            rintro _ _ _ rfl rfl rfl
            exact .inr (by rw [made]; rfl)

theorem changeStorage_run (f : Storage O → Storage O) (w : World O) :
    (changeStorage f).run w = .ok () { w with storage := f w.storage } := rfl

theorem openSession_passes {w : World O} {olm : OlmClient O} {senderKey body : Bytes}
    (here : w.olmclient = some olm) :
    Passes (openSession senderKey body) w ↔ Opens w olm.account senderKey body := by
  unfold openSession Opens
  rw [passes_bind (olmclient_run here)]
  cases created : O.createInboundSession olm.account body with
  | none => exact iff_of_false (not_passes_olm w) nofun
  | some result =>
      obtain ⟨account, session⟩ := result
      -- the account has changed, the storage has not
      have set_ : (setAccount account : Op O Unit).run w = .ok () { w with
          olmclient := w.olmclient.map fun client => { client with account } } := rfl
      dsimp only
      rw [passes_bind set_]
      by_cases ours : O.matchesInboundSessionFrom session senderKey body = true
      · rw [if_pos ours]
        cases decrypted : O.decryptMessage session 0 body with
        | none =>
            refine iff_of_false (not_passes_olm _) ?_
            rintro ⟨_, _, same, opened⟩
            cases same
            obtain ⟨_, _, some_, -⟩ := opened ours
            rw [decrypted] at some_
            cases some_
        | some message =>
            obtain ⟨session', plaintext⟩ := message
            dsimp only
            by_cases json : O.isJson plaintext = true
            · rw [if_pos json, passes_bind (changeStorage_run _ _), keepRoomKey_passes]
              constructor
              · intro keeps
                exact ⟨_, _, rfl, fun _ => ⟨_, _, decrypted, fun _ => keeps⟩⟩
              · rintro ⟨_, _, same, opened⟩
                cases same
                obtain ⟨_, _, some_, keeps⟩ := opened ours
                rw [decrypted] at some_
                cases some_
                exact keeps json
            · rw [if_neg json]
              exact iff_of_true ⟨_, .inr rfl⟩
                ⟨_, _, rfl, fun _ => ⟨_, _, decrypted, fun is => absurd is json⟩⟩
      · rw [if_neg ours]
        exact iff_of_true ⟨_, .inl rfl⟩ ⟨_, _, rfl, fun is => absurd is ours⟩

/-- At most one cipher text of a message is for us. -/
theorem split_of_mem {m : StdMap (Bytes × Nat)} {cipher : Bytes × Bytes × Nat}
    (member : cipher ∈ m.entries) : ∃ before after, m.entries = before ++ cipher :: after ∧
      ∀ other, other ∈ before ∨ other ∈ after → other.1 ≠ cipher.1 := by
  obtain ⟨before, after, split⟩ := List.append_of_mem member
  have sorted := m.sorted
  rw [split, List.pairwise_append, List.pairwise_cons] at sorted
  obtain ⟨-, ⟨above, -⟩, below⟩ := sorted
  refine ⟨before, after, split, fun other listed => ?_⟩
  rcases listed with early | late
  · exact (below other early cipher List.mem_cons_self).ne
  · exact (above other late).ne'

theorem decryptOlmMessage_passes {w : World O} {olm : OlmClient O} {msg : OlmMessage}
    (here : w.olmclient = some olm) :
    Passes (decryptOlmMessage msg) w ↔ ∀ cipher ∈ msg.ciphertext.entries,
      cipher.1 = (O.identityKeys olm.account).curve25519 → cipher.2.2 = 0 →
        Opens w olm.account msg.senderKey cipher.2.1 := by
  unfold decryptOlmMessage
  rw [passes_bind (olmclient_run here)]
  dsimp only
  by_cases ours : ∃ cipher ∈ msg.ciphertext.entries,
      cipher.1 = (O.identityKeys olm.account).curve25519 ∧ cipher.2.2 = 0
  · obtain ⟨cipher, member, mine, type⟩ := ours
    obtain ⟨before, after, split, others⟩ := split_of_mem member
    have single : ∀ c ∈ msg.ciphertext.entries,
        c.1 = (O.identityKeys olm.account).curve25519 → c = cipher := by
      intro c listed its
      by_contra other
      rw [split, List.mem_append, List.mem_cons] at listed
      have elsewhere : c ∈ before ∨ c ∈ after := by tauto
      exact others c elsewhere (its.trans mine.symm)
    unfold Passes
    rw [split, run_forM_single w fun other listed =>
      if_neg fun its => others other listed (its.1.trans mine.symm), if_pos ⟨mine, type⟩]
    show Passes (openSession msg.senderKey cipher.2.1) w ↔ _
    rw [openSession_passes here, ← split]
    constructor
    · intro opens c listed its _
      rw [single c listed its]
      exact opens
    · exact fun all => all cipher member mine type
  · have skips : (msg.ciphertext.entries.forM fun cipher : Bytes × Bytes × Nat =>
      if cipher.1 = (O.identityKeys olm.account).curve25519 ∧ cipher.2.2 = 0 then
        openSession msg.senderKey cipher.2.1
      else (pure () : Op O Unit)).run w = .ok () w :=
        run_forM_skip w fun cipher member => if_neg fun its => ours ⟨cipher, member, its⟩
    exact iff_of_true (passes_ok skips) fun cipher member mine type =>
      absurd ⟨cipher, member, mine, type⟩ ours

theorem handleToDeviceMsg_iff {w : World O} {olm : OlmClient O} (msg : OlmMessage)
    (here : w.olmclient = some olm) :
    (∃ t, (handleToDeviceMsg (some msg)).run w = .ok () t) ↔
      (SyncItem.toDevice (some msg)).Sound w := by
  have sound : (SyncItem.toDevice (some msg)).Sound w ↔ Passes (decryptOlmMessage msg) w := by
    rw [decryptOlmMessage_passes here]
    constructor
    · exact fun sound => sound olm here
    · intro opens olm' there
      cases here.symm.trans there
      exact opens
  rw [sound]
  unfold Passes handleToDeviceMsg
  rw [run_tryCatch]
  cases (decryptOlmMessage msg).run w with
  | ok a t => exact iff_of_true ⟨t, rfl⟩ ⟨t, .inl rfl⟩
  | error e t =>
      by_cases json : e = .json
      · subst json
        exact iff_of_true ⟨t, rfl⟩ ⟨t, .inr rfl⟩
      · dsimp only
        rw [if_neg json]
        refine iff_of_false ?_ ?_
        · rintro ⟨t, ran⟩
          cases ran
        · rintro ⟨t, ran | ran⟩
          · cases ran
          · cases ran
            exact json rfl

/-! ## The whole response -/

/-- A part makes a user a member. -/
def SyncItem.Adds (roomId user : Bytes) : SyncItem → Prop
  | .state r e | .timeline r e => r = roomId ∧ e = .member user
  | _ => False

theorem handle_does {L : Limits} {item : SyncItem} (acts : ∀ act : Act, act.Parsing → L.act act)
    (joins : ∀ roomId user, item.Adds roomId user → L.member roomId user) :
    Moves (Does L) (item.handle : Op O Unit) := by
  cases item with
  | invite roomId => exact request_does (acts _ trivial)
  | toDevice msg =>
      cases msg with
      | none => exact .pure _
      | some msg =>
          refine .tryCatch (decryptOlmMessage_does msg) fun e => ?_
          split
          · exact .pure _
          · exact .throw _
  | oneTimeKeys count => exact refillOneTimeKeys_does count (acts _ trivial)
  | state roomId e => exact stateEvent_does acts fun user same => joins roomId user ⟨rfl, same⟩
  | timeline roomId e =>
      exact timelineEvent_does acts fun user same => joins roomId user ⟨rfl, same⟩

/-- The clients stay. -/
theorem handle_keeps (item : SyncItem) :
    Moves (Keeps World.Ready) (item.handle : Op O Unit) :=
  Does.keeps (L := quiet) (handle_does (fun _ => Act.Parsing.quiet) fun _ _ _ => trivial)

theorem refillOneTimeKeys_ends (count : Nat) :
    Ends World.Ready (refillOneTimeKeys count : Op O Unit) := by
  unfold refillOneTimeKeys
  split
  · refine .bind olmclient_ends (Does.keeps (L := quiet) olmclient_does) fun olm => ?_
    exact .bind (fun w _ => ⟨(), _, rfl⟩) (Does.keeps (L := quiet) (setAccount_does _))
      fun _ => request_ends _
  · exact .pure _

theorem stateEvent_ends (roomId : Bytes) (e : RoomEvent) :
    Ends World.Ready (stateEvent roomId e : Op O Unit) := by
  cases e with
  | encryption =>
      unfold stateEvent
      exact changeStorage_ends _
  | member stateKey =>
      exact .bind (request_ends _) (Does.keeps (L := quiet) (request_does trivial))
        fun _ => changeStorage_ends _
  | encrypted => exact .pure _
  | other => exact .pure _

theorem ok_iff_of_ends {p : Op O Unit} {w : World O} (ends : Ends World.Ready p)
    (ready : w.Ready) : (∃ t, p.run w = .ok () t) ↔ True := by
  obtain ⟨_, t, ran⟩ := ends w ready
  exact iff_of_true ⟨t, ran⟩ trivial

theorem encrypted_iff {w : World O} (ready : w.Ready) (roomId sessionId senderKey ciphertext : Bytes) :
    (∃ t, (timelineEvent roomId (.encrypted sessionId senderKey ciphertext)).run w = .ok () t) ↔
      (SyncItem.timeline roomId (.encrypted sessionId senderKey ciphertext)).Sound w := by
  obtain ⟨olm, here⟩ := Option.isSome_iff_exists.mp ready.2
  show (∃ t, (timelineEvent roomId (.encrypted sessionId senderKey ciphertext)).run w = .ok () t) ↔
    ∀ session, w.storage.inboundGroupSessions.get?
        (Storage.inboundKey roomId sessionId senderKey) = some session → _
  unfold timelineEvent
  rw [run_get_bind]
  cases known : w.storage.inboundGroupSessions.get?
    (Storage.inboundKey roomId sessionId senderKey) with
  | none => exact iff_of_true ⟨w, rfl⟩ nofun
  | some session =>
      dsimp only
      rw [run_bind_ok (olmclient_run here)]
      simp only [Option.some.injEq, forall_eq']
      cases O.decryptGroupMessage session ciphertext with
      | none =>
          refine iff_of_false ?_ fun both => nomatch both.1
          rintro ⟨t, ran⟩
          cases ran
      | some next =>
          dsimp only
          rw [run_bind_ok (changeStorage_run _ _)]
          cases O.bodyOf session ciphertext with
          | none =>
              refine iff_of_false ?_ fun both => nomatch both.2
              rintro ⟨t, ran⟩
              cases ran
          | some body => exact iff_of_true ⟨_, rfl⟩ ⟨rfl, rfl⟩

/-- **A part is handled exactly if it is sound.** -/
theorem handle_iff (w : World O) (item : SyncItem) (ready : w.Ready) :
    (∃ t, item.handle.run w = .ok PUnit.unit t) ↔ item.Sound w := by
  cases item with
  | invite roomId => exact ok_iff_of_ends (request_ends _) ready
  | toDevice msg =>
      cases msg with
      | none => exact iff_of_true ⟨w, rfl⟩ trivial
      | some msg =>
          obtain ⟨olm, here⟩ := Option.isSome_iff_exists.mp ready.2
          exact handleToDeviceMsg_iff msg here
  | oneTimeKeys count => exact ok_iff_of_ends (refillOneTimeKeys_ends count) ready
  | state roomId e => exact ok_iff_of_ends (stateEvent_ends roomId e) ready
  | timeline roomId e =>
      cases e with
      | encrypted sessionId senderKey ciphertext =>
          exact encrypted_iff ready roomId sessionId senderKey ciphertext
      | encryption => exact ok_iff_of_ends (stateEvent_ends roomId .encryption) ready
      | member stateKey => exact ok_iff_of_ends (stateEvent_ends roomId (.member stateKey)) ready
      | other => exact ok_iff_of_ends (stateEvent_ends roomId .other) ready

/-- Each part is sound in the state that is left by those before it. -/
def AllSound (w : World O) (res : SyncResponse) : Prop :=
  ∀ before item after, res.items = before ++ item :: after →
    item.Sound (attempts SyncItem.handle before w)

theorem parseMessages_iff {w : World O} (res : SyncResponse) (ready : w.Ready) :
    (∃ t, (parseMessages res).run w = .ok () t) ↔ AllSound w res := by
  rw [parseMessages_eq]
  exact run_forM_iff (I := World.Ready) (fun s item => handle_iff s item)
    (fun s item => handle_keeps item s) ready

theorem parseMessages_run {w t : World O} {res : SyncResponse}
    (ran : (parseMessages res).run w = .ok () t) : t = attempts SyncItem.handle res.items w := by
  rw [parseMessages_eq] at ran
  exact run_forM_ok ran

/-- **A response is parsed to its end exactly if all of its parts are sound.** -/
theorem parsed_iff {w : World O} (res : SyncResponse) (ready : w.Ready) :
    ParsedToTheEnd w res ↔ AllSound w res := by
  rw [← parseMessages_iff res ready]
  unfold ParsedToTheEnd
  have noted (notes : Nat) : (parseMessagesNoted res).run (w, notes) =
      match (parseMessages res).run w with
      | .ok _ w => .ok () (w, notes + 1)
      | .error e w => .error e (w, notes) := rfl
  constructor
  · intro parsed
    have ran := parsed 0
    rw [noted] at ran
    cases run : (parseMessages res).run w with
    | ok a t => exact ⟨t, rfl⟩
    | error e t =>
        rw [run] at ran
        cases ran
  · rintro ⟨t, ran⟩ notes
    rw [noted, ran, parseMessages_run ran]

/-! ## Answers to key queries -/

/-- A device that would be stored has an ed25519 key, or its id is known by then. -/
def Complete (known : Bytes → Prop) : List (Bytes × DeviceKeys) → Prop
  | [] => True
  | device :: rest =>
      (∀ dev, listed device = some dev → known dev ∨
        (device.2.keys.get? (edIndex dev)).isSome = true) ∧
      Complete (fun dev => known dev ∨ listed device = some dev) rest

theorem complete_congr {known known' : Bytes → Prop} (same : ∀ dev, known dev ↔ known' dev)
    (devices : List (Bytes × DeviceKeys)) : Complete known devices ↔ Complete known' devices := by
  have eq : known = known' := funext fun dev => propext (same dev)
  rw [eq]

theorem complete_append (known : Bytes → Prop) (xs ys : List (Bytes × DeviceKeys)) :
    Complete known (xs ++ ys) ↔
      Complete known xs ∧ Complete (fun dev => known dev ∨ dev ∈ xs.filterMap listed) ys := by
  induction xs generalizing known with
  | nil => simp [Complete]
  | cons device rest ih =>
      rw [List.cons_append, Complete, Complete, ih, and_assoc]
      refine and_congr_right fun _ => and_congr_right fun _ => complete_congr (fun dev => ?_) ys
      rw [List.filterMap_cons]
      cases listed device with
      | none => simp
      | some dev' => simp [or_assoc, eq_comm]

/-- Whether a device id has keys. -/
def Knows (w : World O) (dev : Bytes) : Prop := w.storage.deviceKeys.contains dev = true

theorem keepKeys_run (w : World O) (keyStruct : DeviceKeys) (curve25519 : Bytes) :
    (∃ t, (keepKeys keyStruct curve25519).run w = .ok () t ∧
        (Knows w keyStruct.deviceId ∨
          (keyStruct.keys.get? (edIndex keyStruct.deviceId)).isSome = true) ∧
        ∀ dev, Knows t dev ↔ Knows w dev ∨ dev = keyStruct.deviceId) ∨
      ((∃ thrown t, (keepKeys keyStruct curve25519).run w = .error thrown t) ∧
        ¬ Knows w keyStruct.deviceId ∧
        keyStruct.keys.get? (edIndex keyStruct.deviceId) = none) := by
  unfold keepKeys
  rw [run_get_bind]
  by_cases known : Knows w keyStruct.deviceId
  · left
    rw [show w.storage.deviceKeys.contains keyStruct.deviceId = true from known]
    refine ⟨w, rfl, .inl known, fun dev => (or_iff_left_of_imp ?_).symm⟩
    rintro rfl
    exact known
  · rw [Bool.eq_false_iff.mpr known]
    cases ed : keyStruct.keys.get? (edIndex keyStruct.deviceId) with
    | none => exact .inr ⟨⟨_, w, rfl⟩, known, rfl⟩
    | some ed25519 =>
        refine .inl ⟨_, rfl, .inr rfl, fun dev => ?_⟩
        show (w.storage.deviceKeys.set keyStruct.deviceId _).contains dev = true ↔ _
        rw [Knows, OrdMap.contains, OrdMap.contains, OrdMap.get?_set]
        split
        · rename_i same
          exact iff_of_true rfl (.inr same.symm)
        · rename_i other
          exact (or_iff_left fun same => other same.symm).symm

/-- The loop over the devices of one user ends exactly if they are complete; then the listed
ones are known. -/
theorem saveDevices_iff (devices : List (Bytes × DeviceKeys)) (deviceList : List Bytes)
    (w : World O) :
    ((∃ list t, (saveDevices deviceList devices).run w = .ok list t) ↔
        Complete (Knows w) devices) ∧
      ∀ list t, (saveDevices deviceList devices).run w = .ok list t →
        ∀ dev, Knows t dev ↔ Knows w dev ∨ dev ∈ devices.filterMap listed := by
  induction devices generalizing deviceList w with
  | nil =>
      refine ⟨iff_of_true ⟨_, w, rfl⟩ trivial, fun list t ran dev => ?_⟩
      cases ran
      simp
  | cons device rest ih =>
      obtain ⟨id, keyStruct⟩ := device
      rw [Complete, List.filterMap_cons]
      unfold saveDevices
      cases curve : keyStruct.keys.get? (curveIndex keyStruct.deviceId) with
      | none =>
          have unlisted : listed (id, keyStruct) = none := by
            rw [listed, if_neg]
            rw [curve]
            exact Bool.false_ne_true
          obtain ⟨ends, knows⟩ := ih deviceList w
          rw [unlisted]
          refine ⟨?_, knows⟩
          have free : ∀ dev, none = some dev → Knows w dev ∨
              (keyStruct.keys.get? (edIndex dev)).isSome = true := fun dev same => by cases same
          rw [ends, and_iff_right free]
          exact complete_congr (fun dev => by simp) rest
      | some curve25519 =>
          have listed_ : listed (id, keyStruct) = some keyStruct.deviceId := by
            rw [listed, if_pos]
            rw [curve]
            rfl
          rw [listed_]
          simp only [Option.some.injEq, forall_eq']
          rcases keepKeys_run w keyStruct curve25519 with
            ⟨t, ran, fine, knows⟩ | ⟨⟨thrown, t, ran⟩, unknown, ed⟩
          · rw [run_bind_ok ran]
            obtain ⟨ends, later⟩ := ih (deviceList ++ [keyStruct.deviceId]) t
            have same : ∀ dev, Knows t dev ↔ Knows w dev ∨ keyStruct.deviceId = dev :=
              fun dev => (knows dev).trans (or_congr_right eq_comm)
            refine ⟨?_, fun list t' done dev => ?_⟩
            · rw [ends, complete_congr same rest, and_iff_right fine]
            · rw [later list t' done dev, knows dev, List.mem_cons, or_assoc]
          · rw [run_bind_error ran]
            refine ⟨iff_of_false ?_ ?_, fun list t' done => by cases done⟩
            · rintro ⟨list, t', done⟩
              cases done
            · rintro ⟨known | some_, -⟩
              · exact unknown known
              · rw [ed] at some_
                cases some_

/-- The devices of an answer in the order in which they are saved. -/
def devicesOf (entries : List (Bytes × StdMap DeviceKeys)) : List (Bytes × DeviceKeys) :=
  entries.flatMap fun user => user.2.entries

theorem saveDeviceKeys_iff (entries : List (Bytes × StdMap DeviceKeys)) (w : World O) :
    (∃ t, (saveDeviceKeys entries).run w = .ok () t) ↔ Complete (Knows w) (devicesOf entries) := by
  induction entries generalizing w with
  | nil => exact iff_of_true ⟨w, rfl⟩ trivial
  | cons entry rest ih =>
      obtain ⟨userId, devices⟩ := entry
      obtain ⟨ends, knows⟩ := saveDevices_iff devices.entries [] w
      rw [devicesOf, List.flatMap_cons, complete_append, ← ends]
      unfold saveDeviceKeys
      cases ran : (saveDevices [] devices.entries).run w with
      | ok list t =>
          rw [run_bind_ok ran, run_bind_ok (changeStorage_run _ _), ih, and_iff_right ⟨_, _, rfl⟩]
          exact complete_congr (knows list t ran) _
      | error e t =>
          rw [run_bind_error ran]
          refine iff_of_false ?_ ?_
          · rintro ⟨t', done⟩
            cases done
          · rintro ⟨⟨_, _, done⟩, -⟩
            cases done

/-- **An answer is handled exactly if** no verification throws and the devices are complete. -/
theorem queriedKeys_iff (answer : QueryKeys) (w : World O) :
    (∃ t, (queriedKeys (some answer)).run w = .ok () t) ↔
      ¬ VerificationThrows O answer ∧ Complete (Knows w) (devicesOf answer.entries) := by
  rw [queriedKeys_run, ← saveDeviceKeys_iff]
  split
  · rename_i throws
    refine iff_of_false ?_ fun fine => fine.1 throws
    rintro ⟨t, ran⟩
    cases ran
  · rename_i verified
    exact (and_iff_right verified).symm

/-- **A sync response is processed to its end exactly if** all of its parts are sound, and so is
the answer to a key query it has led to exactly if no verification throws and the devices
are complete. -/
theorem parsed_to_the_end (w : World O) (ready : w.Ready) (res : SyncResponse) :
    (ParsedToTheEnd w res ↔ AllSound w res) ∧
      ∀ (v : World O) (answer : QueryKeys),
        (∃ t, (queriedKeys (some answer)).run v = .ok () t) ↔
          ¬ VerificationThrows O answer ∧ Complete (Knows v) (devicesOf answer.entries) :=
  ⟨parsed_iff res ready, fun v answer => queriedKeys_iff answer v⟩

/-! ## A malformed message -/

/-- The library for examples, with a message that is no olm message. -/
def strict : Mtx :=
  { plain with
    createInboundSession := fun account body =>
      if body = bytes "garbage" then none else some (account, body) }

/-- A process that is logged in. -/
def online (O : Mtx) (account : O.Account) : World O :=
  { World.init O (fun _ => none) with
    mtxclient := some (HttpClient.make (bytes "hs") 443)
    olmclient := some ⟨account, [], []⟩
    connected := true }

/-- A message to a device of ours, and a member who joins. -/
def joining (body : Bytes) : SyncResponse :=
  { invite := []
    toDevice := [some ⟨bytes "sender", bytes "@bob:hs",
      OrdMap.empty.set (bytes "identity") (body, 0)⟩]
    deviceOneTimeKeysCount := []
    join := [⟨bytes "!room", [.member (bytes "@bob:hs")], []⟩]
    nextBatch := [] }

theorem parsed_to_the_end_joining :
    ParsedToTheEnd (online plain (1 : Nat)) (joining (bytes "text")) := by
  refine (parsed_to_the_end (online plain (1 : Nat)) ⟨rfl, rfl⟩ (joining (bytes "text"))).1.mpr ?_
  intro before item after split
  have member : item ∈ (joining (bytes "text")).items := by
    rw [split]
    exact List.mem_append_right _ List.mem_cons_self
  rcases List.mem_cons.mp member with rfl | later
  · intro olm _ cipher listed _ _
    exact ⟨_, _, rfl, fun _ => ⟨_, _, rfl, fun _ => nofun⟩⟩
  · cases List.mem_singleton.mp later
    trivial

/-- An olm message that cannot be opened ends the response: nobody joins, and no note is
sent. -/
theorem garbage_ends_parsing :
    (∃ t, (parseMessagesNoted (joining (bytes "garbage"))).run (online strict (1 : Nat), 0) =
      .error .olm t ∧ t.2 = 0 ∧ t.1.storage.members.get? (bytes "!room") = none) ∧
      ¬ ∀ (w : World strict) (res : SyncResponse), w.Ready → ParsedToTheEnd w res := by
  have ran : (parseMessagesNoted (joining (bytes "garbage"))).run (online strict (1 : Nat), 0) =
      .error .olm (online strict (1 : Nat), 0) := by
    rfl
  refine ⟨⟨_, ran, rfl, rfl⟩, fun all => ?_⟩
  have parsed := all (online strict (1 : Nat)) (joining (bytes "garbage")) ⟨rfl, rfl⟩ 0
  rw [ran] at parsed
  cases parsed

end Piac.Matrix
