/-
# Client.Requests — what each function of the matrix client asks for

`Does L` relates two states of the client: the flags and the user are the same, no
member has gone, and the requests, the callbacks, the members and the devices that
have come stay within the limits `L`. Each program is given its limits once (`…_does`); a program that
throws keeps to them as well.

* A sync, a login and their callbacks are quiet: they send no message and share no key.
* `createOutboundMegolmSession_does`: a room key goes to members of the room only, and
  to devices that the storage lists for them.
* `shareRoomKeys_ends`: sharing a key does not throw while there are clients.
-/
import Piac.Client.Session
import Piac.Theory.Moves

namespace Piac.Matrix

set_option autoImplicit false

open Piac.Theory.CppString Piac.Theory

variable {O : Mtx}

namespace World

def IsMember (w : World O) (roomId user : Bytes) : Prop :=
  ∃ users, w.storage.members.get? roomId = some users ∧ users.contains user = true

/-- The device is on the user's list. -/
def HasDevice (w : World O) (user dev : Bytes) : Prop :=
  dev ∈ (w.storage.devices.get? user).getD []

/-- There is something behind `g_mtxclient` and `g_olmclient`. -/
def Ready (w : World O) : Prop := w.mtxclient.isSome = true ∧ w.olmclient.isSome = true

end World

/-! ## Limits -/

/-- The requests, the callbacks, the members and the devices that may be added. -/
structure Limits where
  act : Act → Prop
  callback : Pending → Prop
  member : Bytes → Bytes → Prop
  device : Bytes → Bytes → Prop

structure Does (L : Limits) (w w' : World O) : Prop where
  connected : w'.connected = w.connected
  shutdown : w'.shutdown = w.shutdown
  matrixUser : w'.matrixUser = w.matrixUser
  mtxclient : w'.mtxclient.isSome = w.mtxclient.isSome
  olmclient : w'.olmclient.isSome = w.olmclient.isSome
  members : ∀ roomId user, w.IsMember roomId user → w'.IsMember roomId user
  joined : ∀ roomId user, w'.IsMember roomId user → w.IsMember roomId user ∨ L.member roomId user
  devices : ∀ user dev, w'.HasDevice user dev → w.HasDevice user dev ∨ L.device user dev
  sent : ∃ acts, w'.sent = w.sent ++ acts ∧ ∀ act ∈ acts, L.act act
  pending : ∃ callbacks, w'.pending = w.pending ++ callbacks ∧ ∀ c ∈ callbacks, L.callback c

namespace Does

variable {L : Limits}

theorem refl (w : World O) : Does L w w where
  connected := rfl
  shutdown := rfl
  matrixUser := rfl
  mtxclient := rfl
  olmclient := rfl
  members _ _ := id
  joined _ _ := .inl
  devices _ _ := .inl
  sent := ⟨[], (List.append_nil _).symm, nofun⟩
  pending := ⟨[], (List.append_nil _).symm, nofun⟩

theorem trans {u v w : World O} (first : Does L u v) (second : Does L v w) : Does L u w where
  connected := second.connected.trans first.connected
  shutdown := second.shutdown.trans first.shutdown
  matrixUser := second.matrixUser.trans first.matrixUser
  mtxclient := second.mtxclient.trans first.mtxclient
  olmclient := second.olmclient.trans first.olmclient
  members r user member := second.members r user (first.members r user member)
  joined r user member := (second.joined r user member).elim (first.joined r user) .inr
  devices user dev has := (second.devices user dev has).elim (first.devices user dev) .inr
  sent := by
    obtain ⟨acts, sent, within⟩ := first.sent
    obtain ⟨acts', sent', within'⟩ := second.sent
    exact ⟨acts ++ acts', by rw [sent', sent, List.append_assoc],
      fun act member => (List.mem_append.mp member).elim (within act) (within' act)⟩
  pending := by
    obtain ⟨callbacks, pending, within⟩ := first.pending
    obtain ⟨callbacks', pending', within'⟩ := second.pending
    exact ⟨callbacks ++ callbacks', by rw [pending', pending, List.append_assoc],
      fun c member => (List.mem_append.mp member).elim (within c) (within' c)⟩

instance : IsPreorder (World O) (Does L) where
  refl := refl
  trans _ _ _ := trans

theorem mono {L' : Limits} {w w' : World O} (does : Does L w w')
    (act : ∀ a, L.act a → L'.act a) (callback : ∀ c, L.callback c → L'.callback c)
    (member : ∀ r user, L.member r user → L'.member r user)
    (device : ∀ user dev, L.device user dev → L'.device user dev) : Does L' w w' :=
  { does with
    joined := fun r user inside => (does.joined r user inside).imp_right (member r user)
    devices := fun user dev has => (does.devices user dev has).imp_right (device user dev)
    sent := by
      obtain ⟨acts, sent, within⟩ := does.sent
      exact ⟨acts, sent, fun a among => act a (within a among)⟩
    pending := by
      obtain ⟨callbacks, pending, within⟩ := does.pending
      exact ⟨callbacks, pending, fun c among => callback c (within c among)⟩ }

theorem ready {w w' : World O} (does : Does L w w') (ready : w.Ready) : w'.Ready :=
  ⟨does.mtxclient.trans ready.1, does.olmclient.trans ready.2⟩

end Does

/-! ## The globals -/

section Globals

variable {L : Limits}

theorem mtxclient_does : Moves (Does L) (mtxclient : Op O HttpClient) := by
  refine Moves.get_bind fun w => ?_
  cases w.mtxclient
  · exact Does.refl w
  · exact Does.refl w

theorem olmclient_does : Moves (Does L) (olmclient : Op O (OlmClient O)) := by
  refine Moves.get_bind fun w => ?_
  cases w.olmclient
  · exact Does.refl w
  · exact Does.refl w

theorem setAccount_does (account : O.Account) : Moves (Does L) (setAccount account) := by
  refine Moves.modify fun w => { Does.refl w with olmclient := ?_ }
  exact Option.isSome_map

theorem mtxclient_run {w : World O} {client : HttpClient} (here : w.mtxclient = some client) :
    mtxclient.run w = .ok client w := by
  unfold mtxclient
  rw [run_get_bind, here]
  rfl

theorem mtxclient_error {w : World O} (missing : w.mtxclient = none) :
    mtxclient.run w = .error .nullMtxclient w := by
  unfold mtxclient
  rw [run_get_bind, missing]
  rfl

theorem olmclient_run {w : World O} {client : OlmClient O} (here : w.olmclient = some client) :
    olmclient.run w = .ok client w := by
  unfold olmclient
  rw [run_get_bind, here]
  rfl

theorem olmclient_error {w : World O} (missing : w.olmclient = none) :
    olmclient.run w = .error .nullOlmclient w := by
  unfold olmclient
  rw [run_get_bind, missing]
  rfl

theorem olmclient_ok {w t : World O} {client : OlmClient O}
    (ran : olmclient.run w = .ok client t) : t = w ∧ w.olmclient = some client := by
  unfold olmclient at ran
  rw [run_get_bind] at ran
  cases here : w.olmclient with
  | none =>
      rw [here] at ran
      cases ran
  | some client' =>
      rw [here] at ran
      cases ran
      exact ⟨rfl, rfl⟩

theorem changeClient_run {w : World O} {client : HttpClient} (f : HttpClient → HttpClient)
    (here : w.mtxclient = some client) :
    (changeClient f).run w = .ok () { w with mtxclient := some (f client) } := by
  unfold changeClient
  rw [run_bind_ok (mtxclient_run here)]
  rfl

theorem changeClient_does {f : HttpClient → HttpClient}
    (sent : ∀ client, ∃ acts, (f client).sent = client.sent ++ acts ∧ ∀ act ∈ acts, L.act act)
    (pending : ∀ client, ∃ callbacks, (f client).pending = client.pending ++ callbacks ∧
      ∀ c ∈ callbacks, L.callback c) : Moves (Does L) (changeClient f : Op O Unit) := by
  intro w
  cases here : w.mtxclient with
  | none =>
      unfold changeClient MovesFrom
      rw [run_bind_error (mtxclient_error here)]
      exact Does.refl w
  | some client =>
      unfold MovesFrom
      rw [changeClient_run f here]
      refine { Does.refl w with mtxclient := by rw [here]; rfl, sent := ?_, pending := ?_ }
      · obtain ⟨acts, same, within⟩ := sent client
        exact ⟨acts, by rw [World.sent, World.sent, here]; exact same, within⟩
      · obtain ⟨callbacks, same, within⟩ := pending client
        exact ⟨callbacks, by rw [World.pending, World.pending, here]; exact same, within⟩

/-- The world after a request. -/
def World.ask (w : World O) (act : Act) : World O :=
  { w with mtxclient := w.mtxclient.map fun client =>
      { client with sent := client.sent ++ [act] } }

theorem request_run {w : World O} (act : Act) (ready : w.mtxclient.isSome = true) :
    (request act).run w = .ok () (w.ask act) := by
  obtain ⟨client, here⟩ := Option.isSome_iff_exists.mp ready
  rw [request, changeClient_run _ here, World.ask, here]
  rfl

theorem World.sent_ask {w : World O} (act : Act) (ready : w.mtxclient.isSome = true) :
    (w.ask act).sent = w.sent ++ [act] := by
  obtain ⟨client, here⟩ := Option.isSome_iff_exists.mp ready
  rw [World.sent, World.sent, World.ask, here]
  rfl

theorem World.pending_ask {w : World O} (act : Act) : (w.ask act).pending = w.pending := by
  unfold World.pending World.ask
  cases w.mtxclient <;> rfl

theorem World.ready_ask {w : World O} (act : Act) (ready : w.Ready) : (w.ask act).Ready :=
  ⟨Option.isSome_map.trans ready.1, ready.2⟩

theorem request_does {act : Act} (within : L.act act) : Moves (Does L) (request act : Op O Unit) :=
  changeClient_does
    (fun _ => ⟨[act], rfl, fun _ member => List.mem_singleton.mp member ▸ within⟩)
    fun _ => ⟨[], (List.append_nil _).symm, nofun⟩

theorem requestWith_does {act : Act} {callback : Pending} (within : L.act act)
    (waits : L.callback callback) : Moves (Does L) (requestWith act callback : Op O Unit) :=
  changeClient_does
    (fun _ => ⟨[act], rfl, fun _ member => List.mem_singleton.mp member ▸ within⟩)
    fun _ => ⟨[callback], rfl, fun _ member => List.mem_singleton.mp member ▸ waits⟩

/-- A change of the storage that leaves the members and the devices. -/
theorem changeStorage_does {f : Storage O → Storage O} (members : ∀ s, (f s).members = s.members)
    (devices : ∀ s, (f s).devices = s.devices) : Moves (Does L) (changeStorage f) := by
  refine Moves.modify fun w => { Does.refl w with members := ?_, joined := ?_, devices := ?_ }
  · intro r user
    unfold World.IsMember
    rw [members]
    exact id
  · intro r user
    unfold World.IsMember
    rw [members]
    exact .inl
  · intro user dev
    unfold World.HasDevice
    rw [devices]
    exact .inl

end Globals

/-! ## Quiet programs -/

/-- Nothing that is told to another user. -/
def Act.Quiet : Act → Prop
  | .login .. | .uploadKeys | .sync _ | .joinRoom _ | .queryKeys _ => True
  | _ => False

/-- What `parse_messages` asks for. -/
def Act.Parsing : Act → Prop
  | .uploadKeys | .joinRoom _ | .queryKeys _ => True
  | _ => False

theorem Act.Parsing.quiet {act : Act} (parsing : act.Parsing) : act.Quiet := by
  cases act <;> trivial

/-- No message, no room key and nothing that waits. -/
def quiet : Limits := ⟨Act.Quiet, fun _ => False, fun _ _ => True, fun _ _ => False⟩

/-- `quiet`, but devices may be listed, and no members. -/
def listing (device : Bytes → Bytes → Prop) : Limits :=
  ⟨Act.Quiet, fun _ => False, fun _ _ => False, device⟩

section Quiet

variable {L : Limits}

theorem keepRoomKey_does (senderKey plaintext : Bytes) :
    Moves (Does L) (keepRoomKey senderKey plaintext : Op O Unit) := by
  unfold keepRoomKey
  split
  · exact .throw _
  · refine Moves.get_bind fun w => ?_
    split
    · split
      · exact Does.refl w
      · exact changeStorage_does (by intro s; rfl) (by intro s; rfl) w
    · exact Does.refl w

theorem openSession_does (senderKey body : Bytes) :
    Moves (Does L) (openSession senderKey body : Op O Unit) := by
  refine .bind olmclient_does fun olm => ?_
  split
  · exact .throw _
  · refine .bind (setAccount_does _) fun _ => ?_
    split
    · split
      · exact .throw _
      · split
        · exact .bind (changeStorage_does (by intro s; rfl) (by intro s; rfl)) fun _ =>
            keepRoomKey_does _ _
        · exact .throw _
    · exact .pure _

theorem decryptOlmMessage_does (msg : OlmMessage) :
    Moves (Does L) (decryptOlmMessage msg : Op O Unit) := by
  refine .bind olmclient_does fun olm => .forM fun cipher _ => ?_
  split
  · exact openSession_does _ _
  · exact .pure _

theorem handleToDeviceMsgs_does (msgs : List (Option OlmMessage)) :
    Moves (Does L) (handleToDeviceMsgs msgs : Op O Unit) := by
  refine .forM fun msg _ => ?_
  split
  · exact .pure _
  · refine .tryCatch (decryptOlmMessage_does _) fun e => ?_
    split
    · exact .pure _
    · exact .throw _

theorem addMember_isMember {s : Storage O} {roomId userId : Bytes} {w : World O} {r user : Bytes}
    (same : w.storage = s) (member : w.IsMember r user) :
    World.IsMember { w with storage := s.addMember roomId userId } r user := by
  obtain ⟨users, found, inside⟩ := member
  subst same
  show ∃ users, ((w.storage.members.set roomId _).get? r) = some users ∧ _
  rw [OrdMap.get?_set]
  split
  · rename_i here
    subst here
    refine ⟨_, rfl, ?_⟩
    rw [found, Option.getD_some, OrdMap.contains, OrdMap.get?_set]
    split
    · rfl
    · exact inside
  · exact ⟨users, found, inside⟩

theorem isMember_addMember {s : Storage O} {roomId userId : Bytes} {w : World O} {r user : Bytes}
    (same : w.storage = s)
    (member : World.IsMember { w with storage := s.addMember roomId userId } r user) :
    w.IsMember r user ∨ (r = roomId ∧ user = userId) := by
  obtain ⟨users, found, inside⟩ := member
  subst same
  change (w.storage.members.set roomId _).get? r = some users at found
  rw [OrdMap.get?_set] at found
  split at found
  · rename_i here
    subst here
    cases found
    rw [OrdMap.contains, OrdMap.get?_set] at inside
    split at inside
    · rename_i himself
      exact .inr ⟨rfl, himself.symm⟩
    · left
      cases old : w.storage.members.get? roomId with
      | none =>
          rw [old] at inside
          cases inside
      | some users =>
          rw [old] at inside
          exact ⟨users, old, inside⟩
  · exact .inl ⟨users, found, inside⟩

theorem memberEvent_does {roomId stateKey : Bytes} (acts : ∀ act : Act, act.Parsing → L.act act)
    (joins : L.member roomId stateKey) : Moves (Does L) (memberEvent roomId stateKey : Op O Unit) := by
  refine .bind (request_does (acts _ trivial)) fun _ => Moves.modify fun w =>
    { Does.refl w with
      members := fun _ _ => addMember_isMember rfl
      joined := fun r user member => ?_ }
  rcases isMember_addMember rfl member with old | ⟨rfl, rfl⟩
  · exact .inl old
  · exact .inr joins

theorem stateEvent_does {roomId : Bytes} {e : RoomEvent} (acts : ∀ act : Act, act.Parsing → L.act act)
    (joins : ∀ user, e = .member user → L.member roomId user) :
    Moves (Does L) (stateEvent roomId e : Op O Unit) := by
  cases e with
  | encryption =>
      unfold stateEvent
      exact changeStorage_does (by intro s; rfl) (by intro s; rfl)
  | member stateKey => exact memberEvent_does acts (joins stateKey rfl)
  | encrypted => exact .pure _
  | other => exact .pure _

theorem timelineEvent_does {roomId : Bytes} {e : RoomEvent}
    (acts : ∀ act : Act, act.Parsing → L.act act)
    (joins : ∀ user, e = .member user → L.member roomId user) :
    Moves (Does L) (timelineEvent roomId e : Op O Unit) := by
  cases e with
  | encryption => exact stateEvent_does acts joins
  | member stateKey => exact stateEvent_does acts joins
  | other => exact .pure _
  | encrypted sessionId senderKey ciphertext =>
      refine Moves.get_bind fun w => ?_
      split
      · exact Does.refl w
      · refine Moves.bind olmclient_does (fun _ => ?_) w
        split
        · exact .throw _
        · refine .bind (changeStorage_does (by intro s; rfl) (by intro s; rfl)) fun _ => ?_
          split
          · exact .throw _
          · exact .pure _

theorem refillOneTimeKeys_does (count : Nat) (uploads : L.act .uploadKeys) :
    Moves (Does L) (refillOneTimeKeys count : Op O Unit) := by
  unfold refillOneTimeKeys
  split
  · exact .bind olmclient_does fun _ =>
      .bind (setAccount_does _) fun _ => request_does uploads
  · exact .pure _

end Quiet

theorem parseMessages_does {L : Limits} {res : SyncResponse}
    (acts : ∀ act : Act, act.Parsing → L.act act)
    (joins : ∀ room ∈ res.join, ∀ user, .member user ∈ room.state ++ room.timeline →
      L.member room.roomId user) : Moves (Does L) (parseMessages res : Op O Unit) := by
  refine .bind (.forM fun _ _ => request_does (acts _ trivial)) fun _ => ?_
  refine .bind (handleToDeviceMsgs_does _) fun _ => ?_
  refine .bind (.forM fun count _ => refillOneTimeKeys_does count (acts _ trivial)) fun _ => ?_
  refine .forM fun room inside => ?_
  have joins := joins room inside
  refine .bind (.forM fun e listed => stateEvent_does acts fun user same => ?_) fun _ => ?_
  · exact joins user (List.mem_append_left _ (same ▸ listed))
  · refine .forM fun e listed => timelineEvent_does acts fun user same => ?_
    exact joins user (List.mem_append_right _ (same ▸ listed))

theorem syncSince_does {L : Limits} {nextBatch : Bytes} (syncs : L.act (.sync nextBatch)) :
    Moves (Does L) (syncSince nextBatch : Op O Unit) :=
  .bind (changeClient_does (fun _ => ⟨[], (List.append_nil _).symm, nofun⟩)
    fun _ => ⟨[], (List.append_nil _).symm, nofun⟩) fun _ => request_does syncs

theorem synced_does (res : Option SyncResponse) : Moves (Does quiet) (synced res : Op O Unit) := by
  cases res with
  | none => exact .bind mtxclient_does fun _ => request_does trivial
  | some res =>
      refine Moves.get_bind fun w => ?_
      split
      · exact Does.refl w
      · exact Moves.bind (parseMessages_does (fun _ => Act.Parsing.quiet) fun _ _ _ _ => trivial)
          (fun _ => syncSince_does trivial) w

theorem initialSynced_does (retry : Bool) (res : Option SyncResponse) :
    Moves (Does quiet) (initialSynced retry res : Op O Unit) := by
  cases res with
  | none =>
      show Moves _ (if retry then request (.sync []) else pure ())
      split
      · exact request_does trivial
      · exact .pure _
  | some res =>
      refine Moves.get_bind fun w => ?_
      split
      · exact Does.refl w
      · refine Moves.bind (parseMessages_does (fun _ => Act.Parsing.quiet) fun _ _ _ _ => trivial)
          (fun _ => ?_) w
        refine .bind (.forM fun room _ => .forM fun e _ => ?_) fun _ => syncSince_does trivial
        split
        · exact memberEvent_does (fun _ => Act.Parsing.quiet) trivial
        · exact .pure _

/-- The credentials that a login ends with. -/
def Storage.credentials (s : Storage O) (res : Login) : Bytes × Bytes :=
  (both (s.deviceId, s.accessToken)).getD (res.deviceId, res.accessToken)

theorem loggedIn_run (res : Login) {w : World O} {client : HttpClient}
    (here : w.mtxclient = some client) :
    (loggedIn (some res)).run w = (do
      let olm ← olmclient
      modify fun w' => { w' with olmclient := some ⟨O.generateOneTimeKeys 50 olm.account,
        res.userId, (w.storage.credentials res).1⟩ }
      request .uploadKeys : Op O Unit).run
        { w with
          mtxclient := some (HttpClient.identify { client with userId := res.userId }
            (w.storage.credentials res))
          storage := w.storage.identify (w.storage.credentials res) } := by
  unfold loggedIn
  rw [run_bind_ok (mtxclient_run here)]
  rfl

theorem loggedIn_does {L : Limits} (res : Option Login) (uploads : L.act .uploadKeys) :
    Moves (Does L) (loggedIn res : Op O Unit) := by
  intro w
  cases res with
  | none => exact Does.refl w
  | some res =>
      cases here : w.mtxclient with
      | none =>
          unfold MovesFrom loggedIn
          rw [run_bind_error (mtxclient_error here)]
          exact Does.refl w
      | some client =>
          unfold MovesFrom
          rw [loggedIn_run res here]
          refine Does.trans ?_ (Moves.from_bind (olmclient_does _) fun olm t ran _ => ?_)
          · exact { Does.refl w with
              mtxclient := by rw [here]; rfl
              sent := ⟨[], by rw [World.sent, World.sent, here, List.append_nil]; rfl, nofun⟩
              pending := ⟨[], by rw [World.pending, World.pending, here, List.append_nil]; rfl,
                nofun⟩ }
          · obtain ⟨rfl, some_⟩ := olmclient_ok ran
            refine Moves.from_bind (R := Does L) ?_ fun _ t _ _ => request_does uploads t
            exact { Does.refl _ with olmclient := by rw [some_]; rfl }

theorem keysUploaded_does {L : Limits} {login ok : Bool}
    (syncs : login = true → ok = true → L.act (.sync [])) :
    Moves (Does L) (keysUploaded login ok : Op O Unit) := by
  unfold keysUploaded
  split
  · rename_i done
    refine .bind olmclient_does fun _ => .bind (setAccount_does _) fun _ => ?_
    split
    · rename_i first
      exact request_does (syncs first done)
    · exact .pure _
  · exact .pure _

/-! ## Listed devices -/

/-- The device id under which `save_device_keys` lists an entry, if there is a key for it. -/
def listed (device : Bytes × DeviceKeys) : Option Bytes :=
  if (device.2.keys.get? (curveIndex device.2.deviceId)).isSome then some device.2.deviceId
  else none

theorem saveDevices_list {deviceList list : List Bytes} {devices : List (Bytes × DeviceKeys)}
    {w t : World O} (ran : (saveDevices deviceList devices).run w = .ok list t) :
    list = deviceList ++ devices.filterMap listed := by
  induction devices generalizing deviceList w with
  | nil =>
      cases ran
      exact (List.append_nil _).symm
  | cons device rest ih =>
      obtain ⟨id, keyStruct⟩ := device
      unfold saveDevices at ran
      rw [List.filterMap_cons, listed]
      cases found : keyStruct.keys.get? (curveIndex keyStruct.deviceId) with
      | none =>
          simp only [found] at ran
          exact ih ran
      | some curve =>
          simp only [found, EStateM.run_bind] at ran
          split at ran
          · rw [ih ran, List.append_assoc]
            rfl
          · cases ran

theorem keepKeys_does {L : Limits} (keyStruct : DeviceKeys) (curve25519 : Bytes) :
    Moves (Does L) (keepKeys keyStruct curve25519 : Op O Unit) := by
  refine Moves.get_bind fun w => ?_
  split
  · split
    · exact Does.refl w
    · exact changeStorage_does (by intro s; rfl) (by intro s; rfl) w
  · exact Does.refl w

theorem saveDevices_does {L : Limits} (deviceList : List Bytes)
    (devices : List (Bytes × DeviceKeys)) :
    Moves (Does L) (saveDevices deviceList devices : Op O (List Bytes)) := by
  induction devices generalizing deviceList with
  | nil => exact .pure _
  | cons device rest ih =>
      obtain ⟨id, keyStruct⟩ := device
      unfold saveDevices
      split
      · exact ih _
      · exact .bind (keepKeys_does _ _) fun _ => ih _

/-- The users and the devices that an answer lists. -/
def Lists (entries : List (Bytes × StdMap DeviceKeys)) (user dev : Bytes) : Prop :=
  ∃ devices, (user, devices) ∈ entries ∧ dev ∈ devices.entries.filterMap listed

theorem saveDeviceKeys_does {L : Limits} (entries : List (Bytes × StdMap DeviceKeys))
    (within : ∀ user dev, Lists entries user dev → L.device user dev) :
    Moves (Does L) (saveDeviceKeys entries : Op O Unit) := by
  induction entries with
  | nil => exact .pure _
  | cons entry rest ih =>
      obtain ⟨userId, devices⟩ := entry
      intro w
      refine Moves.from_bind (saveDevices_does _ _ w) fun list t ran _ => ?_
      refine Moves.from_bind ?_ fun _ t _ _ => ih (fun user dev ⟨devices, member, inside⟩ =>
        within user dev ⟨devices, List.mem_cons_of_mem _ member, inside⟩) t
      refine { Does.refl t with devices := fun user dev has => ?_ }
      unfold World.HasDevice at has
      change dev ∈ ((t.storage.devices.set userId list).get? user).getD [] at has
      rw [OrdMap.get?_set] at has
      split at has
      · rename_i same
        subst same
        rw [saveDevices_list ran] at has
        exact .inr (within _ _ ⟨devices, List.mem_cons_self, has⟩)
      · exact .inl has

theorem verifyDevices_does {L : Limits} (deviceKeys : QueryKeys) :
    Moves (Does L) (verifyDevices deviceKeys : Op O Unit) := by
  refine .forM fun user _ => .forM fun device _ => ?_
  unfold verifyDevice
  split
  · exact .pure _
  · exact .pure _
  · exact .throw _

theorem queriedKeys_does {L : Limits} (deviceKeys : QueryKeys)
    (within : ∀ user dev, Lists deviceKeys.entries user dev → L.device user dev) :
    Moves (Does L) (queriedKeys (some deviceKeys) : Op O Unit) :=
  .bind (verifyDevices_does _) fun _ => saveDeviceKeys_does _ within

/-! ## Messages and room keys -/

/-- Limits in which nobody joins a room and no devices are listed. -/
def asking (act : Act → Prop) (callback : Pending → Prop) : Limits :=
  ⟨act, callback, fun _ _ => False, fun _ _ => False⟩

theorem sendGroupMessage_does {L : Limits} (session : Option O.Outbound)
    (sessionId roomId msg : Bytes) (within : ∀ data, L.act (.roomMessage roomId data)) :
    Moves (Does L) (sendGroupMessage session sessionId roomId msg) := by
  refine .bind olmclient_does fun olm => ?_
  split
  · exact .throw _
  · exact .throw _
  · refine .bind mtxclient_does fun client => .bind (request_does (within _)) fun _ => .pure _

/-- The message event that a session makes of a text. -/
def encrypted (client : HttpClient) (olm : OlmClient O) (session : O.Outbound)
    (sessionId roomId msg : Bytes) : Encrypted :=
  { ciphertext := (O.encryptGroupMessage session (O.document roomId msg)).1
    senderKey := (O.identityKeys olm.account).curve25519, sessionId
    deviceId := client.deviceId, algorithm := olmAlgo }

theorem sendGroupMessage_run {w : World O} {client : HttpClient} {olm : OlmClient O}
    (here : w.mtxclient = some client) (olmHere : w.olmclient = some olm) (session : O.Outbound)
    (sessionId : Bytes) {roomId msg : Bytes} (plain : dumps [roomId, msg] = true) :
    (sendGroupMessage (some session) sessionId roomId msg).run w =
      .ok (O.encryptGroupMessage session (O.document roomId msg)).2
        (w.ask (.roomMessage roomId (encrypted client olm session sessionId roomId msg))) := by
  unfold sendGroupMessage
  rw [run_bind_ok (olmclient_run olmHere), Mtx.dump_eq plain]
  show (mtxclient >>= fun client => _).run w = _
  rw [run_bind_ok (mtxclient_run here), run_bind_ok (request_run _ (by rw [here]; rfl))]
  rfl

/-- A text that is no UTF-8 throws before the session is looked at. -/
theorem sendGroupMessage_odd {w : World O} (session : Option O.Outbound) (sessionId : Bytes)
    {roomId msg : Bytes} {olm : OlmClient O} (olmHere : w.olmclient = some olm)
    (odd : ¬ dumps [roomId, msg] = true) :
    (sendGroupMessage session sessionId roomId msg).run w = .error .json w := by
  unfold sendGroupMessage
  rw [run_bind_ok (olmclient_run olmHere), Mtx.dump_none odd]
  rfl

/-- With a client, a null session throws if the text does not. -/
theorem sendGroupMessage_null {w : World O} (sessionId : Bytes) {roomId msg : Bytes}
    {olm : OlmClient O} (olmHere : w.olmclient = some olm) (plain : dumps [roomId, msg] = true) :
    (sendGroupMessage (none : Option O.Outbound) sessionId roomId msg).run w =
      .error .nullSession w := by
  unfold sendGroupMessage
  rw [run_bind_ok (olmclient_run olmHere), Mtx.dump_eq plain]
  rfl

/-- A message is sent unless a pointer is null, the session or one of the clients, or the text is
no UTF-8. -/
theorem sendGroupMessage_cases (w : World O) (session : Option O.Outbound)
    (sessionId roomId msg : Bytes) :
    (session.isSome = true ∧ w.Ready ∧ dumps [roomId, msg] = true) ∨ ∃ thrown : Thrown,
      (sendGroupMessage session sessionId roomId msg).run w = .error thrown w := by
  cases olmHere : w.olmclient with
  | none => exact .inr ⟨.nullOlmclient, run_bind_error (olmclient_error olmHere)⟩
  | some olm =>
      by_cases plain : dumps [roomId, msg] = true
      · cases session with
        | none => exact .inr ⟨_, sendGroupMessage_null sessionId olmHere plain⟩
        | some session =>
            cases here : w.mtxclient with
            | none =>
                refine .inr ⟨.nullMtxclient, ?_⟩
                unfold sendGroupMessage
                rw [run_bind_ok (olmclient_run olmHere), Mtx.dump_eq plain]
                exact run_bind_error (mtxclient_error here)
            | some client => exact .inl ⟨rfl, ⟨by rw [here]; rfl, by rw [olmHere]; rfl⟩, plain⟩
      · exact .inr ⟨_, sendGroupMessage_odd session sessionId olmHere plain⟩

/-- A room key for one device of one user. -/
def sharing (user dev : Bytes) (payload : RoomKey) : Limits :=
  asking (fun act => (∃ content, act = .toDevice true user dev payload content) ∨
    act = .claimKeys user dev) (· = .claimKeys user dev payload)

theorem shareRoomKey_does (payload : RoomKey) (member dev : Bytes) :
    Moves (Does (sharing member dev payload)) (shareRoomKey payload member dev : Op O Unit) := by
  refine .bind (changeStorage_does (by intro s; rfl) (by intro s; rfl)) fun _ => ?_
  refine Moves.get_bind fun w => ?_
  dsimp only
  split
  · refine Moves.bind olmclient_does (fun olm => ?_) w
    refine .bind (changeStorage_does (by intro s; rfl) (by intro s; rfl)) fun _ => ?_
    exact request_does (.inl ⟨_, rfl⟩)
  · exact requestWith_does (Or.inr rfl) rfl w

/-- Room keys for the members of a room, as far as the storage lists devices for them. -/
def sharingRoom (w : World O) (roomId : Bytes) (payload : RoomKey) : Limits :=
  asking (fun act => ∃ user dev, w.IsMember roomId user ∧ w.HasDevice user dev ∧
      (sharing user dev payload).act act)
    (fun c => ∃ user dev, w.IsMember roomId user ∧ w.HasDevice user dev ∧
      (sharing user dev payload).callback c)

theorem shareRoomKeys_does (w₀ : World O) (roomId : Bytes) (payload : RoomKey)
    {members : List (Bytes × Bool)} (inRoom : ∀ m ∈ members, w₀.IsMember roomId m.1) {w : World O}
    (known : ∀ user dev, w.HasDevice user dev → w₀.HasDevice user dev) :
    MovesFrom (Does (sharingRoom w₀ roomId payload)) w
      (shareRoomKeys payload members : Op O Unit) := by
  induction members generalizing w with
  | nil => exact Does.refl w
  | cons member rest ih =>
      have touched : Does (sharingRoom w₀ roomId payload) w { w with storage :=
          { w.storage with devices := w.storage.devices.touch member.1 [] } } := by
        refine { Does.refl w with devices := fun user dev has => .inl ?_ }
        change dev ∈ ((w.storage.devices.touch member.1 []).get? user).getD [] at has
        rw [OrdMap.get?_touch] at has
        unfold World.HasDevice
        split at has
        · exact has
        · exact has
      have known' : ∀ user dev, World.HasDevice { w with storage :=
          { w.storage with devices := w.storage.devices.touch member.1 [] } } user dev →
          w₀.HasDevice user dev := fun user dev has =>
        known user dev ((touched.devices user dev has).elim id False.elim)
      unfold shareRoomKeys
      refine Moves.from_bind touched fun _ t ran _ => ?_
      cases ran
      refine Moves.from_bind (R := Does (sharingRoom w₀ roomId payload)) (Does.refl _)
        fun a t ran _ => ?_
      cases ran
      refine Moves.from_bind ?_ fun _ t _ done => ih
        (fun m later => inRoom m (List.mem_cons_of_mem _ later)) fun user dev has => ?_
      · refine Moves.forM (fun dev listed => ?_) _
        refine (shareRoomKey_does payload member.1 dev).mono fun s t does => does.mono ?_ ?_ ?_ ?_
        · exact fun a within =>
            ⟨member.1, dev, inRoom member List.mem_cons_self, known' _ _ listed, within⟩
        · exact fun c within =>
            ⟨member.1, dev, inRoom member List.mem_cons_self, known' _ _ listed, within⟩
        · exact fun _ _ => id
        · exact fun _ _ => id
      · exact known' user dev ((done.devices user dev has).elim id False.elim)

/-- **A session for a room**: its key goes to the members, as far as the storage lists devices
for them, and a message to the room. -/
theorem createOutboundMegolmSession_does {L : Limits} (roomId msg : Bytes) (fresh : O.Outbound)
    (w : World O)
    (shares : ∀ act, (sharingRoom w roomId (roomKeyFor O roomId fresh)).act act → L.act act)
    (waits : ∀ c, (sharingRoom w roomId (roomKeyFor O roomId fresh)).callback c → L.callback c)
    (tells : ∀ data, L.act (.roomMessage roomId data)) :
    MovesFrom (Does L) w (createOutboundMegolmSession roomId msg fresh) := by
  refine Moves.from_bind (olmclient_does w) fun olm t ran _ => ?_
  obtain ⟨rfl, -⟩ := olmclient_ok ran
  refine Moves.from_bind (R := Does L) (Does.refl t) fun _ t' ran _ => ?_
  cases ran
  split
  · exact Does.refl t
  · rename_i members found
    refine Moves.from_bind ?_ fun _ t _ _ => ?_
    · refine Does.mono (shareRoomKeys_does t roomId _ (fun m member => ?_) fun _ _ => id) shares
        waits (fun _ _ => False.elim) fun _ _ => False.elim
      exact ⟨members, found, OrdMap.contains_iff.mpr ⟨m.2, OrdMap.get?_eq_some.mpr member⟩⟩
    · refine Moves.bind (sendGroupMessage_does _ _ _ _ tells) (fun session => ?_) t
      exact changeStorage_does (fun _ => rfl) fun _ => rfl

theorem claimedKeys_does (member dev : Bytes) (payload : RoomKey) (res : Option ClaimKeys) :
    Moves (Does (asking (fun act => ∃ content, act = .toDevice false member dev payload content)
      fun _ => False)) (claimedKeys member dev payload res : Op O Unit) := by
  unfold claimedKeys
  split
  · exact .pure _
  · split
    · exact .throw _
    · refine .forM fun rd _ => ?_
      unfold claimedKey
      split
      · exact .throw _
      · refine .bind (changeStorage_does (by intro s; rfl) (by intro s; rfl)) fun _ => ?_
        refine Moves.get_bind fun w => Moves.bind olmclient_does (fun olm => ?_) w
        split
        · exact .throw _
        · refine .bind (changeStorage_does (by intro s; rfl) (by intro s; rfl)) fun _ => ?_
          exact request_does ⟨_, rfl⟩

/-! ## Sharing does not throw -/

theorem request_ends (act : Act) : Ends World.Ready (request act : Op O Unit) := by
  rintro w ⟨client, -⟩
  obtain ⟨client, here⟩ := Option.isSome_iff_exists.mp client
  exact ⟨_, _, changeClient_run _ here⟩

theorem requestWith_ends (act : Act) (callback : Pending) :
    Ends World.Ready (requestWith act callback : Op O Unit) := by
  rintro w ⟨client, -⟩
  obtain ⟨client, here⟩ := Option.isSome_iff_exists.mp client
  exact ⟨_, _, changeClient_run _ here⟩

theorem olmclient_ends : Ends World.Ready (olmclient : Op O (OlmClient O)) := by
  rintro w ⟨-, olm⟩
  obtain ⟨olm, here⟩ := Option.isSome_iff_exists.mp olm
  exact ⟨_, _, olmclient_run here⟩

theorem changeStorage_ends (f : Storage O → Storage O) :
    Ends World.Ready (changeStorage f : Op O Unit) := fun _ _ => ⟨(), _, rfl⟩

theorem changeStorage_keeps (f : Storage O → Storage O) :
    Moves (Keeps World.Ready) (changeStorage f : Op O Unit) := fun _ => id

theorem Does.keeps {L : Limits} {α : Type} {p : Op O α} (moves : Moves (Does L) p) :
    Moves (Keeps World.Ready) p := moves.mono fun _ _ does => does.ready

theorem shareRoomKey_ends (payload : RoomKey) (member dev : Bytes) :
    Ends World.Ready (shareRoomKey payload member dev : Op O Unit) := by
  refine .bind (changeStorage_ends _) (changeStorage_keeps _) fun _ => ?_
  intro w ready
  rw [run_get_bind]
  dsimp only
  split
  · exact Ends.bind olmclient_ends (Does.keeps (L := quiet) olmclient_does) (fun olm =>
      .bind (changeStorage_ends _) (changeStorage_keeps _) fun _ => request_ends _) w ready
  · exact requestWith_ends _ _ w ready

theorem shareRoomKeys_ends (payload : RoomKey) (members : List (Bytes × Bool)) :
    Ends World.Ready (shareRoomKeys payload members : Op O Unit) := by
  induction members with
  | nil => exact .pure _
  | cons member rest ih =>
      refine .bind (changeStorage_ends _) (changeStorage_keeps _) fun _ => ?_
      intro w ready
      rw [run_get_bind]
      exact Ends.bind (.forM (shareRoomKey_ends payload member.1) fun dev =>
        Does.keeps (shareRoomKey_does payload member.1 dev))
        (Moves.forM fun dev _ => Does.keeps (shareRoomKey_does payload member.1 dev))
        (fun _ => ih) w ready

end Piac.Matrix
