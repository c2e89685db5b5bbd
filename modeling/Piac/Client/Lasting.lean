/-
# Client.Lasting — what the programs of the client leave as it is

`Does` limits what a program asks for; `Leaves F` says what it leaves alone: the token of
the sync loop, the outbound group sessions and the lists of devices, but for what the
freedom `F` gives away, and whatever it is given, the account stays the same account and
no inbound group session is lost. An account changes by `Ages`, a session by `Advances`.

Each program has its lemma (`…_leaves`), with one rule for each way to change the globals.
-/
import Piac.Client.Rooms
import Mathlib.Logic.Relation

namespace Piac.Matrix

set_option autoImplicit false

open Piac.Theory.CppString Piac.Theory Relation

variable {O : Mtx}

/-! ## The relation -/

/-- What becomes of an account. -/
inductive Ages (O : Mtx) (account : O.Account) : O.Account → Prop where
  | opened {body : Bytes} {next : O.Account} {session : O.Session}
      (made : O.createInboundSession account body = some (next, session)) : Ages O account next
  | generated (n : Nat) : Ages O account (O.generateOneTimeKeys n account)
  | published : Ages O account (O.markKeysAsPublished account)

/-- What decrypting makes of an inbound group session. -/
def Advances (O : Mtx) (session next : O.Inbound) : Prop :=
  ∃ ciphertext, O.decryptGroupMessage session ciphertext = some next

/-- What may be changed besides. -/
structure Freedom where
  batch : Prop
  session : Prop
  devices : Prop

namespace World

def nextBatch (w : World O) : Option Bytes := w.mtxclient.map HttpClient.nextBatch

/-- The devices that the storage lists for a user. -/
def devicesOf (w : World O) (user : Bytes) : List Bytes := (w.storage.devices.get? user).getD []

def inbound (w : World O) (key : Bytes) : Option O.Inbound :=
  w.storage.inboundGroupSessions.get? key

end World

/-- The sessions with which the client sends, and what it knows of them. -/
structure SameSessions (s s' : Storage O) : Prop where
  sessions : s'.outboundGroupSessions = s.outboundGroupSessions
  data : s'.outboundGroupSessionData = s.outboundGroupSessionData

/-- A change of something else. -/
structure SameElse (s s' : Storage O) : Prop where
  outbound : SameSessions s s'
  devices : s'.devices = s.devices
  inbound : s'.inboundGroupSessions = s.inboundGroupSessions

structure Leaves (F : Freedom) (w w' : World O) : Prop where
  batch : F.batch ∨ w'.nextBatch = w.nextBatch
  session : F.session ∨ SameSessions w.storage w'.storage
  devices : F.devices ∨ ∀ user, w'.devicesOf user = w.devicesOf user
  olmclient : w'.olmclient.isSome = w.olmclient.isSome
  account : ∀ olm', w'.olmclient = some olm' → ∃ olm, w.olmclient = some olm ∧
    ReflTransGen (Ages O) olm.account olm'.account
  inbound : ∀ key session, w.inbound key = some session → ∃ next, w'.inbound key = some next ∧
    ReflTransGen (Advances O) session next

namespace Leaves

variable {F : Freedom}

theorem refl (w : World O) : Leaves F w w where
  batch := .inr rfl
  session := .inr ⟨rfl, rfl⟩
  devices := .inr fun _ => rfl
  olmclient := rfl
  account olm here := ⟨olm, here, .refl⟩
  inbound _ session here := ⟨session, here, .refl⟩

theorem trans {u v w : World O} (first : Leaves F u v) (second : Leaves F v w) : Leaves F u w where
  batch := by
    rcases first.batch with free | same
    · exact .inl free
    · exact second.batch.imp_right fun same' => same'.trans same
  session := by
    rcases first.session with free | same
    · exact .inl free
    · exact second.session.imp_right fun same' =>
        ⟨same'.sessions.trans same.sessions, same'.data.trans same.data⟩
  devices := by
    rcases first.devices with free | same
    · exact .inl free
    · exact second.devices.imp_right fun same' user => (same' user).trans (same user)
  olmclient := second.olmclient.trans first.olmclient
  account olm'' here := by
    obtain ⟨olm', here', later⟩ := second.account olm'' here
    obtain ⟨olm, here, early⟩ := first.account olm' here'
    exact ⟨olm, here, early.trans later⟩
  inbound key session here := by
    obtain ⟨next, here', early⟩ := first.inbound key session here
    obtain ⟨last, here, later⟩ := second.inbound key next here'
    exact ⟨last, here, early.trans later⟩

instance instIsPreorder : IsPreorder (World O) (Leaves F) where
  refl := refl
  trans _ _ _ := trans

theorem mono {F' : Freedom} {w w' : World O} (leaves : Leaves F w w')
    (batch : F.batch → F'.batch) (session : F.session → F'.session)
    (devices : F.devices → F'.devices) : Leaves F' w w' :=
  { leaves with
    batch := leaves.batch.imp_left batch
    session := leaves.session.imp_left session
    devices := leaves.devices.imp_left devices }

/-- A state that differs in what is not spoken of. -/
theorem of_same {w w' : World O} (storage : w'.storage = w.storage)
    (olmclient : w'.olmclient = w.olmclient) (batch : w'.nextBatch = w.nextBatch) :
    Leaves F w w' := by
  refine ⟨.inr batch, .inr ?_, .inr ?_, by rw [olmclient], ?_, ?_⟩
  · rw [storage]
    exact ⟨rfl, rfl⟩
  · intro user
    rw [World.devicesOf, storage]
    rfl
  · intro olm here
    exact ⟨olm, olmclient ▸ here, .refl⟩
  · intro key session here
    refine ⟨session, ?_, .refl⟩
    rw [World.inbound, storage]
    exact here

end Leaves

/-! ## The globals -/

section Globals

variable {F : Freedom}

theorem mtxclient_leaves : Moves (Leaves F) (mtxclient : Op O HttpClient) := by
  refine Moves.get_bind fun w => ?_
  cases w.mtxclient
  · exact Leaves.refl w
  · exact Leaves.refl w

/-- What stands behind `g_olmclient` is known to the rest. -/
theorem olmclient_bind_leaves {α : Type} {f : OlmClient O → Op O α} {w : World O}
    (rest : ∀ olm, w.olmclient = some olm → MovesFrom (Leaves F) w (f olm)) :
    MovesFrom (Leaves F) w (olmclient >>= f) := by
  unfold MovesFrom
  cases here : w.olmclient with
  | none =>
      rw [run_bind_error (olmclient_error here)]
      exact Leaves.refl w
  | some olm =>
      rw [run_bind_ok (olmclient_run here)]
      exact rest olm here

theorem setAccount_leaves {w : World O} {olm : OlmClient O} {account : O.Account}
    (here : w.olmclient = some olm) (ages : Ages O olm.account account) :
    MovesFrom (Leaves F) w (setAccount account) := by
  refine ⟨.inr rfl, .inr ⟨rfl, rfl⟩, .inr fun _ => rfl, Option.isSome_map, fun olm' after => ?_,
    fun _ session held => ⟨session, held, .refl⟩⟩
  change w.olmclient.map _ = some olm' at after
  rw [here] at after
  cases after
  exact ⟨olm, here, .single ages⟩

theorem changeClient_leaves {f : HttpClient → HttpClient}
    (batch : F.batch ∨ ∀ client, (f client).nextBatch = client.nextBatch) :
    Moves (Leaves F) (changeClient f : Op O Unit) := by
  intro w
  unfold MovesFrom
  cases here : w.mtxclient with
  | none =>
      unfold changeClient
      rw [run_bind_error (mtxclient_error here)]
      exact Leaves.refl w
  | some client =>
      rw [changeClient_run f here]
      refine { Leaves.refl w with batch := batch.imp_right fun same => ?_ }
      show some (f client).nextBatch = w.nextBatch
      rw [same, World.nextBatch, here]
      rfl

theorem request_leaves (act : Act) : Moves (Leaves F) (request act : Op O Unit) :=
  changeClient_leaves (.inr fun _ => rfl)

theorem requestWith_leaves (act : Act) (callback : Pending) :
    Moves (Leaves F) (requestWith act callback : Op O Unit) :=
  changeClient_leaves (.inr fun _ => rfl)

theorem changeStorage_leaves {f : Storage O → Storage O} {w : World O}
    (session : F.session ∨ SameSessions w.storage (f w.storage))
    (devices : F.devices ∨ ∀ user, ((f w.storage).devices.get? user).getD [] = w.devicesOf user)
    (inbound : ∀ key session, w.inbound key = some session →
      ∃ next, (f w.storage).inboundGroupSessions.get? key = some next ∧
        ReflTransGen (Advances O) session next) :
    MovesFrom (Leaves F) w (changeStorage f) :=
  ⟨.inr rfl, session, devices, rfl, fun olm here => ⟨olm, here, .refl⟩, inbound⟩

/-- A change of the storage that is none of the sessions and of the lists. -/
theorem changeStorage_else_leaves {f : Storage O → Storage O}
    (same : ∀ s, SameElse s (f s)) : Moves (Leaves F) (changeStorage f : Op O Unit) := by
  intro w
  have same := same w.storage
  refine changeStorage_leaves (.inr same.outbound) (.inr fun user => ?_) fun key held here => ?_
  · rw [same.devices]
    rfl
  · exact ⟨held, by rw [same.inbound]; exact here, .refl⟩

end Globals

/-! ## Sync -/

section Sync

variable {F : Freedom}

theorem keepRoomKey_leaves (senderKey plaintext : Bytes) :
    Moves (Leaves F) (keepRoomKey senderKey plaintext : Op O Unit) := by
  unfold keepRoomKey
  split
  · exact .throw _
  · refine Moves.get_bind fun w => ?_
    split
    · rename_i new
      split
      · exact Leaves.refl w
      · refine changeStorage_leaves (.inr ⟨rfl, rfl⟩) (.inr fun _ => rfl) fun key held here => ?_
        refine ⟨held, ?_, .refl⟩
        rw [OrdMap.get?_set, if_neg]
        · exact here
        · rintro rfl
          rw [World.inbound] at here
          rw [OrdMap.contains, here] at new
          cases new
    · exact Leaves.refl w

theorem openSession_leaves (senderKey body : Bytes) :
    Moves (Leaves F) (openSession senderKey body : Op O Unit) := by
  intro w
  refine olmclient_bind_leaves fun olm here => ?_
  split
  · exact Leaves.refl w
  · rename_i account session made
    refine Moves.from_bind (setAccount_leaves here (.opened made)) fun _ t _ _ => ?_
    split
    · split
      · exact Leaves.refl t
      · split
        · exact Moves.bind (changeStorage_else_leaves (by intro s; exact ⟨⟨rfl, rfl⟩, rfl, rfl⟩))
            (fun _ => keepRoomKey_leaves _ _) t
        · exact Leaves.refl t
    · exact Leaves.refl t

theorem decryptOlmMessage_leaves (msg : OlmMessage) :
    Moves (Leaves F) (decryptOlmMessage msg : Op O Unit) := by
  intro w
  refine olmclient_bind_leaves fun olm _ => Moves.forM (fun cipher _ => ?_) w
  split
  · exact openSession_leaves _ _
  · exact .pure _

theorem handleToDeviceMsgs_leaves (msgs : List (Option OlmMessage)) :
    Moves (Leaves F) (handleToDeviceMsgs msgs : Op O Unit) := by
  refine .forM fun msg _ => ?_
  split
  · exact .pure _
  · refine .tryCatch (decryptOlmMessage_leaves _) fun e => ?_
    split
    · exact .pure _
    · exact .throw _

theorem memberEvent_leaves (roomId stateKey : Bytes) :
    Moves (Leaves F) (memberEvent roomId stateKey : Op O Unit) := by
  exact .bind (request_leaves _) fun _ =>
    changeStorage_else_leaves (by intro s; exact ⟨⟨rfl, rfl⟩, rfl, rfl⟩)

theorem stateEvent_leaves (roomId : Bytes) (e : RoomEvent) :
    Moves (Leaves F) (stateEvent roomId e : Op O Unit) := by
  cases e with
  | encryption =>
      unfold stateEvent
      exact changeStorage_else_leaves (by intro s; exact ⟨⟨rfl, rfl⟩, rfl, rfl⟩)
  | member stateKey => exact memberEvent_leaves roomId stateKey
  | encrypted => exact .pure _
  | other => exact .pure _

theorem timelineEvent_leaves (roomId : Bytes) (e : RoomEvent) :
    Moves (Leaves F) (timelineEvent roomId e : Op O Unit) := by
  cases e with
  | encryption => exact stateEvent_leaves roomId .encryption
  | member stateKey => exact stateEvent_leaves roomId (.member stateKey)
  | other => exact .pure _
  | encrypted sessionId senderKey ciphertext =>
      refine Moves.get_bind fun w => ?_
      split
      · exact Leaves.refl w
      · rename_i session found
        refine olmclient_bind_leaves fun _ _ => ?_
        split
        · exact Leaves.refl w
        · rename_i next decrypted
          refine Moves.from_bind ?_ fun _ t _ _ => ?_
          · refine changeStorage_leaves (.inr ⟨rfl, rfl⟩) (.inr fun _ => rfl) fun key held here => ?_
            rw [OrdMap.get?_set]
            split
            · rename_i same
              subst same
              cases here.symm.trans found
              exact ⟨next, rfl, .single ⟨ciphertext, decrypted⟩⟩
            · exact ⟨held, here, .refl⟩
          · split
            · exact Leaves.refl t
            · exact Leaves.refl t

theorem refillOneTimeKeys_leaves (count : Nat) :
    Moves (Leaves F) (refillOneTimeKeys count : Op O Unit) := by
  unfold refillOneTimeKeys
  split
  · intro w
    refine olmclient_bind_leaves fun olm here => ?_
    exact Moves.from_bind (setAccount_leaves here (.generated _)) fun _ t _ _ => request_leaves _ t
  · exact .pure _

/-- What a sync brings leaves the token and what the client sends with. -/
theorem parseMessages_leaves (res : SyncResponse) :
    Moves (Leaves F) (parseMessages res : Op O Unit) := by
  refine .bind (.forM fun _ _ => request_leaves _) fun _ => ?_
  refine .bind (handleToDeviceMsgs_leaves _) fun _ => ?_
  refine .bind (.forM fun count _ => refillOneTimeKeys_leaves count) fun _ => ?_
  refine .forM fun room _ => ?_
  exact .bind (.forM fun e _ => stateEvent_leaves _ e) fun _ =>
    .forM fun e _ => timelineEvent_leaves _ e

theorem syncSince_leaves (nextBatch : Bytes) (free : F.batch) :
    Moves (Leaves F) (syncSince nextBatch : Op O Unit) :=
  .bind (changeClient_leaves (.inl free)) fun _ => request_leaves _

theorem synced_leaves (res : Option SyncResponse) (free : F.batch) :
    Moves (Leaves F) (synced res : Op O Unit) := by
  cases res with
  | none => exact .bind mtxclient_leaves fun _ => request_leaves _
  | some res =>
      refine Moves.get_bind fun w => ?_
      split
      · exact Leaves.refl w
      · exact Moves.bind (parseMessages_leaves res) (fun _ => syncSince_leaves _ free) w

theorem initialSynced_leaves (retry : Bool) (res : Option SyncResponse) (free : F.batch) :
    Moves (Leaves F) (initialSynced retry res : Op O Unit) := by
  cases res with
  | none =>
      show Moves _ (if retry then request (.sync []) else pure ())
      split
      · exact request_leaves _
      · exact .pure _
  | some res =>
      refine Moves.get_bind fun w => ?_
      split
      · exact Leaves.refl w
      · refine Moves.bind (parseMessages_leaves res) (fun _ => ?_) w
        refine .bind (.forM fun room _ => .forM fun e _ => ?_) fun _ => syncSince_leaves _ free
        split
        · exact memberEvent_leaves _ _
        · exact .pure _

end Sync

/-! ## Login and keys -/

section Login

variable {F : Freedom}

theorem loggedIn_leaves (res : Option Login) : Moves (Leaves F) (loggedIn res : Op O Unit) := by
  intro w
  cases res with
  | none => exact Leaves.refl w
  | some res =>
      cases here : w.mtxclient with
      | none =>
          unfold MovesFrom loggedIn
          rw [run_bind_error (mtxclient_error here)]
          exact Leaves.refl w
      | some client =>
          unfold MovesFrom
          rw [loggedIn_run res here]
          refine Leaves.trans (F := F) ?_ (olmclient_bind_leaves fun olm before => ?_)
          · refine { Leaves.refl (F := F) w with
              batch := .inr ?_
              session := .inr ⟨rfl, rfl⟩
              devices := .inr fun _ => rfl }
            rw [World.nextBatch, World.nextBatch, here]
            rfl
          · refine Moves.from_bind (R := Leaves F) ?_ fun _ t _ _ => request_leaves _ t
            refine { Leaves.refl (F := F) _ with
              olmclient := by rw [before]; rfl
              account := fun olm' after => ?_ }
            cases after
            exact ⟨olm, before, .single (.generated 50)⟩

theorem keysUploaded_leaves (login ok : Bool) :
    Moves (Leaves F) (keysUploaded login ok : Op O Unit) := by
  unfold keysUploaded
  split
  · intro w
    refine olmclient_bind_leaves fun olm here => ?_
    refine Moves.from_bind (setAccount_leaves here .published) fun _ t _ _ => ?_
    split
    · exact request_leaves _ t
    · exact Leaves.refl t
  · exact .pure _

theorem keepKeys_leaves (keyStruct : DeviceKeys) (curve25519 : Bytes) :
    Moves (Leaves F) (keepKeys keyStruct curve25519 : Op O Unit) := by
  refine Moves.get_bind fun w => ?_
  split
  · split
    · exact Leaves.refl w
    · exact changeStorage_else_leaves (by intro s; exact ⟨⟨rfl, rfl⟩, rfl, rfl⟩) w
  · exact Leaves.refl w

theorem saveDevices_leaves (deviceList : List Bytes) (devices : List (Bytes × DeviceKeys)) :
    Moves (Leaves F) (saveDevices deviceList devices : Op O (List Bytes)) := by
  induction devices generalizing deviceList with
  | nil => exact .pure _
  | cons device rest ih =>
      obtain ⟨id, keyStruct⟩ := device
      unfold saveDevices
      split
      · exact ih _
      · exact .bind (keepKeys_leaves _ _) fun _ => ih _

theorem saveDeviceKeys_leaves (entries : List (Bytes × StdMap DeviceKeys)) (free : F.devices) :
    Moves (Leaves F) (saveDeviceKeys entries : Op O Unit) := by
  induction entries with
  | nil => exact .pure _
  | cons entry rest ih =>
      obtain ⟨userId, devices⟩ := entry
      refine .bind (saveDevices_leaves _ _) fun list => .bind ?_ fun _ => ih
      intro w
      exact changeStorage_leaves (.inr ⟨rfl, rfl⟩) (.inl free) fun key held here =>
        ⟨held, here, .refl⟩

theorem queriedKeys_leaves (res : Option QueryKeys) (free : F.devices) :
    Moves (Leaves F) (queriedKeys res : Op O Unit) := by
  cases res with
  | none => exact .pure _
  | some deviceKeys =>
      refine .bind (.forM fun user _ => .forM fun device _ => ?_) fun _ =>
        saveDeviceKeys_leaves _ free
      unfold verifyDevice
      split
      · exact .pure _
      · exact .pure _
      · exact .throw _

end Login

/-! ## Messages -/

section Messages

variable {F : Freedom}

theorem sendGroupMessage_leaves (session : Option O.Outbound) (sessionId roomId msg : Bytes) :
    Moves (Leaves F) (sendGroupMessage session sessionId roomId msg) := by
  intro w
  refine olmclient_bind_leaves fun olm _ => ?_
  split
  · exact Leaves.refl w
  · exact Leaves.refl w
  · exact Moves.bind mtxclient_leaves (fun _ => .bind (request_leaves _) fun _ => .pure _) w

theorem shareRoomKey_leaves (payload : RoomKey) (member dev : Bytes) :
    Moves (Leaves F) (shareRoomKey payload member dev : Op O Unit) := by
  refine .bind (changeStorage_else_leaves (by intro s; exact ⟨⟨rfl, rfl⟩, rfl, rfl⟩)) fun _ =>
    Moves.get_bind fun w => ?_
  dsimp only
  split
  · refine olmclient_bind_leaves fun olm _ => ?_
    exact Moves.bind (changeStorage_else_leaves (by intro s; exact ⟨⟨rfl, rfl⟩, rfl, rfl⟩))
      (fun _ => request_leaves _) w
  · exact requestWith_leaves _ _ w

theorem devicesOf_touch (w : World O) (member user : Bytes) :
    ((w.storage.devices.touch member []).get? user).getD [] = w.devicesOf user := by
  rw [OrdMap.get?_touch, World.devicesOf]
  split
  · rfl
  · rfl

theorem shareRoomKeys_leaves (payload : RoomKey) (members : List (Bytes × Bool)) :
    Moves (Leaves F) (shareRoomKeys payload members : Op O Unit) := by
  induction members with
  | nil => exact .pure _
  | cons member rest ih =>
      refine .bind ?_ fun _ => Moves.get_bind fun w => ?_
      · intro w
        exact changeStorage_leaves (.inr ⟨rfl, rfl⟩) (.inr (devicesOf_touch w member.1))
          fun key held here => ⟨held, here, .refl⟩
      · exact Moves.bind (.forM fun dev _ => shareRoomKey_leaves payload member.1 dev)
          (fun _ => ih) w

theorem createOutboundMegolmSession_leaves (roomId msg : Bytes) (fresh : O.Outbound)
    (free : F.session) :
    Moves (Leaves F) (createOutboundMegolmSession roomId msg fresh : Op O Unit) := by
  intro w
  refine olmclient_bind_leaves fun olm _ => Moves.get_bind (fun t => ?_) w
  split
  · exact Leaves.refl t
  · refine Moves.bind (shareRoomKeys_leaves _ _) (fun _ => .bind (sendGroupMessage_leaves _ _ _ _)
      fun session => ?_) t
    intro v
    exact changeStorage_leaves (.inl free) (.inr fun _ => rfl) fun key held here =>
      ⟨held, here, .refl⟩

theorem createdRoom_leaves (usr msg roomId : Bytes) (fresh : O.Outbound) (free : F.session) :
    Moves (Leaves F) (createdRoom usr msg roomId fresh : Op O Unit) :=
  .bind (request_leaves _) fun _ => createOutboundMegolmSession_leaves _ _ _ free

theorem matrixMessage_leaves (usr ad msg : Bytes) (free : F.session) :
    Moves (Leaves F) (matrixMessage usr ad msg : Op O Unit) := by
  refine Moves.get_bind fun w => ?_
  dsimp only
  split
  · refine Moves.get_bind (fun t => Moves.bind mtxclient_leaves (fun _ => ?_) t) w
    split
    · exact requestWith_leaves _ _
    · exact .throw _
  · refine Moves.bind ?_ (fun _ => Moves.get_bind fun t => ?_) w
    · intro v
      exact changeStorage_leaves (.inl free) (.inr fun _ => rfl) fun key held here =>
        ⟨held, here, .refl⟩
    · refine Moves.bind (sendGroupMessage_leaves _ _ _ _) (fun session => ?_) t
      intro v
      exact changeStorage_leaves (.inl free) (.inr fun _ => rfl) fun key held here =>
        ⟨held, here, .refl⟩

theorem claimedKey_leaves (member dev : Bytes) (payload : RoomKey) (otk : Option Bytes) :
    Moves (Leaves F) (claimedKey member dev payload otk : Op O Unit) := by
  unfold claimedKey
  split
  · exact .throw _
  · refine .bind (changeStorage_else_leaves (by intro s; exact ⟨⟨rfl, rfl⟩, rfl, rfl⟩)) fun _ =>
      Moves.get_bind fun w => ?_
    refine olmclient_bind_leaves fun olm _ => ?_
    split
    · exact Leaves.refl w
    · exact Moves.bind (changeStorage_else_leaves (by intro s; exact ⟨⟨rfl, rfl⟩, rfl, rfl⟩))
        (fun _ => request_leaves _) w

theorem claimedKeys_leaves (member dev : Bytes) (payload : RoomKey) (res : Option ClaimKeys) :
    Moves (Leaves F) (claimedKeys member dev payload res : Op O Unit) := by
  unfold claimedKeys
  split
  · exact .pure _
  · split
    · exact .throw _
    · exact .forM fun rd _ => claimedKey_leaves member dev payload rd.2

end Messages

/-! ## One event -/

/-- What an event may change besides. -/
def Event.freedom : Event O → Freedom
  | .initialSynced .. | .synced _ => ⟨True, False, False⟩
  | .message .. | .created .. => ⟨False, True, False⟩
  | .queriedKeys _ => ⟨False, False, True⟩
  | _ => ⟨False, False, False⟩

/-- As long as a login lasts no other one starts. -/
def OneLogin (w : World O) (e : Event O) : Prop :=
  ∀ server username password dbKey fresh, e = .opens server username password dbKey fresh →
    w.connected = true

variable {w w' : World O} {e : Event O}

theorem opens_online {server username password dbKey : Bytes} {fresh : O.Account}
    (one : OneLogin w (.opens server username password dbKey fresh))
    (stepped : step w (.opens server username password dbKey fresh) = some w') : w' = w := by
  rw [step_opens, if_pos (one _ _ _ _ _ rfl)] at stepped
  exact (Option.some.inj stepped).symm

/-- A step does what its program leaves alone, whichever way that ends. -/
theorem leaves_of_program {F : Freedom} {p : Op O Unit} (is : program w e = some p)
    (leaves : MovesFrom (Leaves F) w p) (stepped : step w e = some w') : Leaves F w w' := by
  obtain ⟨p', is', rfl, -⟩ := step_eq_some.mp stepped
  cases is.symm.trans is'
  exact leaves

theorem leaves_answer {F : Freedom} (w : World O) (i : Nat) : Leaves F w (w.answer i) := by
  refine .of_same rfl rfl ?_
  unfold World.answer World.nextBatch
  cases w.mtxclient <;> rfl

theorem leaves_ask {F : Freedom} (w : World O) (act : Act) : Leaves F w (w.ask act) := by
  refine .of_same rfl rfl ?_
  unfold World.ask World.nextBatch
  cases w.mtxclient <;> rfl

/-- The answer to an invitation that the process survives. -/
theorem created_ends {i : Nat} {roomId usr msg : Bytes} {fresh : O.Outbound}
    (stepped : step w (.created i roomId fresh usr msg) = some w') : w.connected = true ∧
      (∃ c, w.pending[i]? = some c) ∧
      w' = left ((createdRoom usr msg roomId fresh).run (w.answer i)) := by
  obtain ⟨p, is, rfl, -⟩ := step_eq_some.mp stepped
  unfold program at is
  dsimp only at is
  split at is
  · rename_i online waits
    cases is
    exact ⟨online, ⟨_, waits⟩, by rw [run_bind_ok (answered_run waits)]⟩
  · cases is

/-- An answered invitation that the process survives finds both clients. -/
theorem created_ready {i : Nat} {roomId usr msg : Bytes} {fresh : O.Outbound}
    (stepped : step w (.created i roomId fresh usr msg) = some w') : w.Ready := by
  obtain ⟨_, _, online, waits, -⟩ := created_step stepped
  obtain ⟨client, here⟩ := client_of_pending waits
  refine ⟨by rw [here]; rfl, ?_⟩
  cases olmHere : w.olmclient with
  | some olm => rfl
  | none =>
      obtain ⟨p, is, -, survives⟩ := step_eq_some.mp stepped
      unfold program at is
      simp only [online, waits] at is
      cases is
      have asked : (w.answer i).mtxclient.isSome = true := by
        rw [World.answer, here]
        rfl
      have threw : (createdRoom usr msg roomId fresh).run (w.answer i) =
          .error .nullOlmclient ((w.answer i).ask (.inviteUser roomId usr)) := by
        rw [createdRoom, run_bind_ok (request_run _ asked), createOutboundMegolmSession]
        exact run_bind_error (olmclient_error olmHere)
      cases survives _ _ ((run_bind_ok (answered_run waits)).trans threw)

/-- The answer to a claim. -/
theorem claimed_ends {i : Nat} {res : Option ClaimKeys}
    (stepped : step w (.claimed i res) = some w') : ∃ member dev payload, w.connected = true ∧
      w.pending[i]? = some (.claimKeys member dev payload) ∧
      w' = left ((claimedKeys member dev payload res).run (w.answer i)) := by
  obtain ⟨p, is, rfl, -⟩ := step_eq_some.mp stepped
  unfold program at is
  dsimp only at is
  split at is
  · rename_i member dev payload online waits
    cases is
    exact ⟨member, dev, payload, online, waits, by rw [run_bind_ok (answered_run waits)]⟩
  · cases is

/-- **One event** of a login leaves the account and the inbound sessions, and all else but what
it is about. -/
theorem step_leaves (one : OneLogin w e) (stepped : step w e = some w') :
    Leaves e.freedom w w' := by
  obtain ⟨p, is, -⟩ := step_eq_some.mp stepped
  cases e with
  | opens server username password dbKey fresh =>
      cases opens_online one stepped
      exact Leaves.refl w
  | loggedIn res =>
      obtain ⟨-, same⟩ := Option.ite_none_right_eq_some.mp is
      cases same
      exact leaves_of_program is (loggedIn_leaves res w) stepped
  | keysUploaded login ok =>
      obtain ⟨-, same⟩ := Option.ite_none_right_eq_some.mp is
      cases same
      exact leaves_of_program is (keysUploaded_leaves login ok w) stepped
  | initialSynced retry res =>
      obtain ⟨-, same⟩ := Option.ite_none_right_eq_some.mp is
      cases same
      exact leaves_of_program is (initialSynced_leaves retry res trivial w) stepped
  | synced res =>
      obtain ⟨-, same⟩ := Option.ite_none_right_eq_some.mp is
      cases same
      exact leaves_of_program is (synced_leaves res trivial w) stepped
  | queriedKeys res =>
      obtain ⟨-, same⟩ := Option.ite_none_right_eq_some.mp is
      cases same
      exact leaves_of_program is (queriedKeys_leaves res trivial w) stepped
  | message usr ad msg =>
      cases is
      exact leaves_of_program rfl (matrixMessage_leaves usr ad msg trivial w) stepped
  | created i roomId fresh usr msg =>
      obtain ⟨-, -, ended⟩ := created_ends stepped
      rw [ended]
      exact (leaves_answer w i).trans (createdRoom_leaves usr msg roomId fresh trivial _)
  | claimed i res =>
      obtain ⟨member, dev, payload, -, -, ended⟩ := claimed_ends stepped
      rw [ended]
      exact (leaves_answer w i).trans (claimedKeys_leaves member dev payload res _)
  | disconnect =>
      obtain ⟨-, rfl⟩ := disconnect_step stepped
      exact .of_same rfl rfl rfl
  | closes =>
      obtain ⟨-, -, obj, olm, -, -, rfl⟩ := closes_step stepped
      exact .of_same rfl rfl rfl

/-- A login leaves the account and the inbound sessions. -/
theorem run_leaves {events : List (Event O)} (run : Transition.Run step OneLogin w events w') :
    Leaves ⟨True, True, True⟩ w w' := by
  induction run with
  | nil => exact Leaves.refl w
  | snoc _ one stepped ih =>
      refine ih.trans ((step_leaves one stepped).mono ?_ ?_ ?_)
      · exact fun _ => trivial
      · exact fun _ => trivial
      · exact fun _ => trivial

end Piac.Matrix
