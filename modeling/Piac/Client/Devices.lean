/-
# Client.Devices — which devices get a room key

An answer about device keys is walked twice: `verifyDevices` checks each signature and
only warns of one that does not verify, `saveDeviceKeys` then lists every device with a
curve25519 key. What stops the second walk is another exception of the first.

* `OnlyVerified`: what the answer adds to the storage is verified;
* `VerifiedAnswer`: every device that would be listed is, or nothing is saved;
* `verified_iff`: these are the answers after which only verified devices are listed, and
  in a login with no others a room key goes to no other device.
-/
import Piac.Client.Privacy

namespace Piac.Matrix

set_option autoImplicit false

open Piac.Theory.CppString Piac.Theory Piac.Theory.Transition

variable {O : Mtx} {w w' : World O}

/-! ## Verification -/

variable (O) in
/-- `verify_identity_signature` has returned true. -/
def Verified (user : Bytes) (device : Bytes × DeviceKeys) : Prop :=
  O.verifyIdentitySignature device.2 device.1 user = .answer true

instance (user : Bytes) : DecidablePred (Verified O user) := fun _ =>
  inferInstanceAs (Decidable (_ = _))

variable (O) in
/-- The verification of a device throws what is not caught. -/
def VerificationThrows (deviceKeys : QueryKeys) : Prop :=
  ∃ user ∈ deviceKeys.entries, ∃ device ∈ user.2.entries,
    O.verifyIdentitySignature device.2 device.1 user.1 = .otherException

instance (deviceKeys : QueryKeys) : Decidable (VerificationThrows O deviceKeys) :=
  inferInstanceAs (Decidable (∃ user ∈ deviceKeys.entries, ∃ device ∈ user.2.entries, _ = _))

theorem verifyDevices_run (deviceKeys : QueryKeys) (w : World O) :
    (verifyDevices deviceKeys).run w =
      if VerificationThrows O deviceKeys then .error .verification w else .ok () w := by
  refine run_forM_check (fun user s => run_forM_check (fun device s => ?_) _ _) _ _
  unfold verifyDevice
  cases O.verifyIdentitySignature device.2 device.1 user.1 <;> rfl

variable (O) in
/-- An entry of the answer that would be stored under the device id is verified. -/
def Vouched (deviceKeys : QueryKeys) (user dev : Bytes) (device : Bytes × DeviceKeys) : Prop :=
  ∃ devices, (user, devices) ∈ deviceKeys.entries ∧ device ∈ devices.entries ∧
    listed device = some dev ∧ Verified O user device

theorem queriedKeys_run (deviceKeys : QueryKeys) (w : World O) :
    (queriedKeys (some deviceKeys)).run w =
      if VerificationThrows O deviceKeys then .error .verification w
      else (saveDeviceKeys deviceKeys.entries).run w := by
  show (verifyDevices deviceKeys >>= fun _ => saveDeviceKeys deviceKeys.entries).run w = _
  have first := verifyDevices_run deviceKeys w
  split at first
  · rename_i throws
    rw [run_bind_error first, if_pos throws]
  · rename_i quiet
    rw [run_bind_ok first, if_neg quiet]

/-- The keys that are stored for a device. -/
def HasKeys (device : DeviceKeys) (keys : DevKeys) : Prop :=
  device.keys.get? (edIndex device.deviceId) = some keys.ed25519 ∧
    device.keys.get? (curveIndex device.deviceId) = some keys.curve25519

/-- What an answer adds to the storage comes from verified devices: a list that is new holds ids of
verified devices of the user, as often as there are such devices, and new keys are those of a
verified device. -/
structure OnlyVerified (deviceKeys : QueryKeys) (s s' : Storage O) : Prop where
  devices : ∀ user list, s'.devices.get? user = some list → s.devices.get? user = some list ∨
    ∃ devices, (user, devices) ∈ deviceKeys.entries ∧
      list.Sublist ((devices.entries.filter fun d => Verified O user d).filterMap listed)
  keys : ∀ dev keys, s'.deviceKeys.get? dev = some keys → s.deviceKeys.get? dev = some keys ∨
    ∃ user device, Vouched O deviceKeys user dev device ∧ HasKeys device.2 keys

variable (O) in
/-- Nothing is saved, or every device that is listed is verified. -/
def VerifiedAnswer (deviceKeys : QueryKeys) : Prop :=
  VerificationThrows O deviceKeys ∨ ∀ user ∈ deviceKeys.entries, ∀ device ∈ user.2.entries,
    (listed device).isSome = true → Verified O user.1 device

instance (deviceKeys : QueryKeys) : Decidable (VerifiedAnswer O deviceKeys) :=
  inferInstanceAs (Decidable (_ ∨ ∀ user ∈ deviceKeys.entries, ∀ device ∈ user.2.entries, _ → _))

/-! ## What is saved -/

/-- The lists and the keys that may be new. -/
structure Saves (list : Bytes → List Bytes → Prop) (keys : Bytes → DevKeys → Prop)
    (w w' : World O) : Prop where
  devices : ∀ user l, w'.storage.devices.get? user = some l →
    w.storage.devices.get? user = some l ∨ list user l
  keys : ∀ dev k, w'.storage.deviceKeys.get? dev = some k →
    w.storage.deviceKeys.get? dev = some k ∨ keys dev k

instance (list : Bytes → List Bytes → Prop) (keys : Bytes → DevKeys → Prop) :
    IsPreorder (World O) (Saves list keys) where
  refl _ := ⟨fun _ _ => .inl, fun _ _ => .inl⟩
  trans _ _ _ first second :=
    ⟨fun user l has => (second.devices user l has).elim (first.devices user l) .inr,
      fun dev k has => (second.keys dev k has).elim (first.keys dev k) .inr⟩

section Saves

variable {list : Bytes → List Bytes → Prop} {keys : Bytes → DevKeys → Prop}

theorem keepKeys_saves {keyStruct : DeviceKeys} {curve25519 : Bytes}
    (found : keyStruct.keys.get? (curveIndex keyStruct.deviceId) = some curve25519)
    (within : ∀ k, HasKeys keyStruct k → keys keyStruct.deviceId k) :
    Moves (Saves list keys) (keepKeys keyStruct curve25519 : Op O Unit) := by
  refine Moves.get_bind fun w => ?_
  split
  · split
    · exact refl_of (Saves list keys) w
    · rename_i ed25519 found'
      refine ⟨fun _ _ => .inl, fun dev k has => ?_⟩
      change (w.storage.deviceKeys.set keyStruct.deviceId ⟨ed25519, curve25519⟩).get? dev = some k at has
      rw [OrdMap.get?_set] at has
      split at has
      · rename_i same
        subst same
        cases has
        exact .inr (within _ ⟨found', found⟩)
      · exact .inl has
  · exact refl_of (Saves list keys) w

theorem saveDevices_saves (deviceList : List Bytes) {devices : List (Bytes × DeviceKeys)}
    (within : ∀ device ∈ devices, ∀ dev, listed device = some dev →
      ∀ k, HasKeys device.2 k → keys dev k) :
    Moves (Saves list keys) (saveDevices deviceList devices : Op O (List Bytes)) := by
  induction devices generalizing deviceList with
  | nil => exact .pure _
  | cons device rest ih =>
      obtain ⟨id, keyStruct⟩ := device
      have later := fun deviceList => ih deviceList fun d member =>
        within d (List.mem_cons_of_mem _ member)
      unfold saveDevices
      split
      · exact later _
      · rename_i curve found
        refine .bind (keepKeys_saves found fun k has => ?_) fun _ => later _
        exact within _ List.mem_cons_self _ (if_pos (by rw [found]; rfl)) k has

theorem saveDeviceKeys_saves {entries : List (Bytes × StdMap DeviceKeys)}
    (lists : ∀ user ∈ entries, list user.1 (user.2.entries.filterMap listed))
    (within : ∀ user ∈ entries, ∀ device ∈ user.2.entries, ∀ dev, listed device = some dev →
      ∀ k, HasKeys device.2 k → keys dev k) :
    Moves (Saves list keys) (saveDeviceKeys entries : Op O Unit) := by
  induction entries with
  | nil => exact .pure _
  | cons entry rest ih =>
      obtain ⟨userId, devices⟩ := entry
      intro w
      refine Moves.from_bind (saveDevices_saves _ (within _ List.mem_cons_self) w)
        fun l t ran _ => ?_
      refine Moves.from_bind ?_ fun _ t _ _ => ih
        (fun user member => lists user (List.mem_cons_of_mem _ member))
        (fun user member => within user (List.mem_cons_of_mem _ member)) t
      refine ⟨fun user l' has => ?_, fun _ _ => .inl⟩
      change (t.storage.devices.set userId l).get? user = some l' at has
      rw [OrdMap.get?_set] at has
      split at has
      · rename_i same
        subst same
        cases has
        rw [saveDevices_list ran]
        exact .inr (lists _ List.mem_cons_self)
      · exact .inl has

end Saves

/-! ## A storage that has all the keys -/

/-- A storage without devices that has keys for those of an answer. -/
def knowing (O : Mtx) (devs : List Bytes) : Storage O :=
  { (Storage.init : Storage O) with
    deviceKeys := devs.foldl (fun m dev => m.set dev ⟨[], []⟩) .empty }

/-- A client with that storage. -/
def knows (O : Mtx) (deviceKeys : QueryKeys) : World O :=
  { World.init O fun _ => none with
    storage := knowing O (deviceKeys.entries.flatMap fun user =>
      user.2.entries.map fun device => device.2.deviceId) }

theorem contains_foldl_set {devs : List Bytes} {m : StdMap DevKeys} {dev : Bytes}
    (there : dev ∈ devs ∨ m.contains dev = true) :
    (devs.foldl (fun m dev => m.set dev ⟨[], []⟩) m).contains dev = true := by
  induction devs generalizing m with
  | nil => exact there.resolve_left List.not_mem_nil
  | cons first rest ih =>
      refine ih ?_
      rw [OrdMap.contains, OrdMap.get?_set]
      rcases there with member | there
      · rcases List.mem_cons.mp member with rfl | later
        · rw [if_pos rfl]
          exact .inr rfl
        · exact .inl later
      · refine .inr ?_
        split
        · rfl
        · exact there

theorem saveDevices_known {devices : List (Bytes × DeviceKeys)} (deviceList : List Bytes)
    (known : ∀ device ∈ devices, w.storage.deviceKeys.contains device.2.deviceId = true) :
    (saveDevices deviceList devices).run w =
      .ok (deviceList ++ devices.filterMap listed) w := by
  induction devices generalizing deviceList with
  | nil => rw [List.filterMap_nil, List.append_nil]; rfl
  | cons device rest ih =>
      obtain ⟨id, keyStruct⟩ := device
      have later := fun deviceList => ih deviceList fun d member =>
        known d (List.mem_cons_of_mem _ member)
      unfold saveDevices
      rw [List.filterMap_cons, listed]
      cases found : keyStruct.keys.get? (curveIndex keyStruct.deviceId) with
      | none => exact later _
      | some curve =>
          have kept : (keepKeys keyStruct curve).run w = .ok () w := by
            have here : w.storage.deviceKeys.contains keyStruct.deviceId = true :=
              known _ List.mem_cons_self
            unfold keepKeys
            rw [run_get_bind, here]
            rfl
          dsimp only
          rw [run_bind_ok kept, later, List.append_assoc]
          rfl

theorem saveDeviceKeys_known {entries : List (Bytes × StdMap DeviceKeys)}
    (known : ∀ user ∈ entries, ∀ device ∈ user.2.entries,
      w.storage.deviceKeys.contains device.2.deviceId = true) :
    (saveDeviceKeys entries).run w = .ok () { w with storage := { w.storage with
      devices := (entries.map fun e => (e.1, e.2.entries.filterMap listed)).foldl
        (fun m e => m.set e.1 e.2) w.storage.devices } } := by
  induction entries generalizing w with
  | nil => rfl
  | cons entry rest ih =>
      obtain ⟨userId, devices⟩ := entry
      unfold saveDeviceKeys
      rw [run_bind_ok (saveDevices_known [] (known _ List.mem_cons_self))]
      exact ih (w := { w with storage := { w.storage with
        devices := w.storage.devices.set userId (devices.entries.filterMap listed) } })
        fun user member => known user (List.mem_cons_of_mem _ member)

theorem knows_contains (deviceKeys : QueryKeys) : ∀ user ∈ deviceKeys.entries,
    ∀ device ∈ user.2.entries,
      (knows O deviceKeys).storage.deviceKeys.contains device.2.deviceId = true :=
  fun user member _ inside => contains_foldl_set (.inl (List.mem_flatMap.mpr
    ⟨user, member, List.mem_map_of_mem inside⟩))

theorem lists_knows {deviceKeys : QueryKeys} {user : Bytes × StdMap DeviceKeys}
    (member : user ∈ deviceKeys.entries) :
    ((deviceKeys.entries.map fun e => (e.1, e.2.entries.filterMap listed)).foldl
      (fun m e => m.set e.1 e.2) (OrdMap.empty : StdMap (List Bytes))).get? user.1 =
        some (user.2.entries.filterMap listed) := by
  have merged := OrdMap.get?_merge .empty
    (deviceKeys.mapVal fun devices => devices.entries.filterMap listed) user.1
  rw [OrdMap.get?_mapVal, OrdMap.get?_eq_some.mpr member] at merged
  exact merged

/-! ## Only verified devices -/

/-- If as many are left as there were, all have stayed. -/
theorem all_of_sublist_filter {α β : Type} {f : α → Option β} {p : α → Bool} {l : List α}
    (sub : (l.filterMap f).Sublist ((l.filter p).filterMap f)) :
    ∀ x ∈ l, (f x).isSome = true → p x = true := by
  induction l with
  | nil => nofun
  | cons x l ih =>
      intro z member some_
      cases found : f x with
      | none =>
          have rest : (l.filterMap f).Sublist ((l.filter p).filterMap f) := by
            rw [List.filterMap_cons_none found] at sub
            rw [List.filter_cons] at sub
            split at sub
            · rwa [List.filterMap_cons_none found] at sub
            · exact sub
          rcases List.mem_cons.mp member with rfl | later
          · rw [found] at some_
            cases some_
          · exact ih rest z later some_
      | some y =>
          rw [List.filterMap_cons_some found, List.filter_cons] at sub
          split at sub
          · rename_i holds
            rw [List.filterMap_cons_some found, List.cons_sublist_cons] at sub
            rcases List.mem_cons.mp member with rfl | later
            · exact holds
            · exact ih sub z later some_
          · -- one more on the left than there are on the right
            have short := sub.length_le
            have fewer := (List.filter_sublist (p := p) (l := l)).filterMap f |>.length_le
            rw [List.length_cons] at short
            omega

theorem onlyVerified_iff (deviceKeys : QueryKeys) :
    (∀ w : World O, OnlyVerified deviceKeys w.storage
      (left ((queriedKeys (some deviceKeys)).run w)).storage) ↔ VerifiedAnswer O deviceKeys := by
  constructor
  · intro only
    by_cases throws : VerificationThrows O deviceKeys
    · exact .inl throws
    · refine .inr fun user member device inside => ?_
      have all := only (knows O deviceKeys)
      rw [queriedKeys_run, if_neg throws, saveDeviceKeys_known (knows_contains deviceKeys)] at all
      obtain old | ⟨devices, among, sub⟩ := all.devices user.1
        (user.2.entries.filterMap listed) (lists_knows member)
      · cases old
      · have same : devices = user.2 := Option.some.inj
          ((OrdMap.get?_eq_some.mpr among).symm.trans (OrdMap.get?_eq_some.mpr member))
        rw [same] at sub
        exact fun some_ => of_decide_eq_true (all_of_sublist_filter sub device inside some_)
  · rintro verified w
    rw [queriedKeys_run]
    split
    · exact ⟨fun _ _ => .inl, fun _ _ => .inl⟩
    · rename_i quiet
      have all := verified.resolve_left quiet
      have saves : MovesFrom (Saves
          (fun user list => ∃ devices, (user, devices) ∈ deviceKeys.entries ∧
            list = devices.entries.filterMap listed)
          fun dev keys => ∃ user device, Vouched O deviceKeys user dev device ∧
            HasKeys device.2 keys) w (saveDeviceKeys deviceKeys.entries) :=
        saveDeviceKeys_saves (fun user member => ⟨user.2, member, rfl⟩)
        (fun user member device inside dev is k has => ⟨user.1, device,
          ⟨user.2, member, inside, is, all user member device inside (by rw [is]; rfl)⟩, has⟩) w
      refine ⟨fun user list has => (saves.devices user list has).imp_right ?_, saves.keys⟩
      rintro ⟨devices, member, rfl⟩
      refine ⟨devices, member, ?_⟩
      have same : (devices.entries.filter fun d => Verified O user d).filterMap listed =
          devices.entries.filterMap listed := by
        rw [List.filterMap_filter]
        refine List.filterMap_congr fun device inside => ?_
        split
        · rfl
        · rename_i unverified
          cases is : listed device with
          | none => rfl
          | some dev =>
              have ok := all (user, devices) member device inside (by rw [is]; rfl)
              exact absurd (decide_eq_true ok) unverified
      rw [same]

/-! ## Room keys -/

/-- The event is an answer that vouches for the device. -/
def Vouches (e : Event O) (user dev : Bytes) : Prop :=
  ∃ deviceKeys device, e = .queriedKeys (some deviceKeys) ∧ Vouched O deviceKeys user dev device

/-- The login goes on, and an answer adds verified devices only. -/
def Careful (w : World O) : Event O → Prop
  | .opens .. => w.connected = true
  | .queriedKeys (some deviceKeys) => VerifiedAnswer O deviceKeys
  | _ => True

/-- The lists of a careful step. -/
theorem hasDevice_step {e : Event O} {user dev : Bytes} (careful : Careful w e)
    (stepped : step w e = some w') (has : w'.HasDevice user dev) :
    w.HasDevice user dev ∨ Vouches e user dev := by
  have callback : e.Callback → w.HasDevice user dev := fun callback =>
    ((callback_step callback stepped).2.devices user dev has).elim id False.elim
  cases e with
  | opens server username password dbKey fresh =>
      rw [step_opens, if_pos (show w.connected = true from careful)] at stepped
      cases stepped
      exact .inl has
  | loggedIn res => exact .inl (callback trivial)
  | keysUploaded login ok => exact .inl (callback trivial)
  | initialSynced retry res => exact .inl (callback trivial)
  | synced res => exact .inl (callback trivial)
  | queriedKeys res =>
      obtain ⟨-, does⟩ := queriedKeys_step stepped
      obtain old | ⟨deviceKeys, rfl, devices, among, inside⟩ := does.devices user dev has
      · exact .inl old
      · by_cases throws : VerificationThrows O deviceKeys
        · obtain ⟨p, is, rfl, -⟩ := step_eq_some.mp stepped
          obtain ⟨-, same⟩ := Option.ite_none_right_eq_some.mp is
          cases same
          rw [queriedKeys_run, if_pos throws] at has
          exact .inl has
        · obtain ⟨device, there, lists⟩ := List.mem_filterMap.mp inside
          have verified := careful.resolve_left throws (user, devices) among device there
            (by rw [lists]; rfl)
          exact .inr ⟨deviceKeys, device, rfl, devices, among, there, lists, verified⟩
  | message usr ad msg =>
      refine .inl ?_
      obtain ⟨client, -, -, ⟨-, rfl⟩ | ⟨-, olm, session, -, -, rfl⟩⟩ := message_step stepped
      · exact has
      · exact has
  | created i roomId fresh usr msg =>
      obtain ⟨-, -, -, -, does⟩ := created_step stepped
      exact .inl ((does.devices user dev has).elim id False.elim)
  | claimed i res =>
      obtain ⟨member, dev, payload, -, waits, does⟩ := claimed_step stepped
      exact .inl ((does.devices user _ has).elim id False.elim)
  | disconnect =>
      obtain ⟨-, rfl⟩ := disconnect_step stepped
      exact .inl has
  | closes =>
      obtain ⟨-, -, obj, olm, -, -, rfl⟩ := closes_step stepped
      exact .inl has

/-- In a careful run a key goes to devices that were listed at its start or have been vouched
for since. -/
theorem shares_vouched {v : World O} {events : List (Event O)} (run : Run step Careful v events w) :
    ∀ s ∈ w.shares, s ∈ v.shares ∨ v.HasDevice s.user s.dev ∨
      ∃ e ∈ events, Vouches e s.user s.dev := by
  have lists : (∀ user dev, w.HasDevice user dev → v.HasDevice user dev ∨
      ∃ e ∈ events, Vouches e user dev) ∧
      ∀ s ∈ w.shares, s ∈ v.shares ∨ v.HasDevice s.user s.dev ∨
        ∃ e ∈ events, Vouches e s.user s.dev := by
    induction run with
    | nil => exact ⟨fun _ _ => .inl, fun _ => .inl⟩
    | @snoc events t u e _ careful stepped ih =>
        have later : ∀ user dev, (∃ e' ∈ events, Vouches e' user dev) →
            ∃ e' ∈ events ++ [e], Vouches e' user dev := fun user dev ⟨e', member, vouches⟩ =>
          ⟨e', List.mem_append_left _ member, vouches⟩
        have known := fun user dev has => (ih.1 user dev has).imp_right (later user dev)
        refine ⟨fun user dev has => ?_, fun s shared => ?_⟩
        · obtain old | new := hasDevice_step careful stepped has
          · exact known user dev old
          · exact .inr ⟨e, List.mem_append_right _ List.mem_cons_self, new⟩
        · obtain none_ | ⟨-, new⟩ := shares_step stepped
          · rw [none_] at shared
            exact absurd shared List.not_mem_nil
          · obtain old | ⟨-, has⟩ := new s shared
            · exact (ih.2 s old).imp_right (Or.imp_right (later s.user s.dev))
            · exact .inr (known s.user s.dev has)
  exact lists.2

variable (O) in
/-- **What an answer adds to the storage is verified exactly when each device that it would list
is, or the verification stops it**; and in a login all of whose answers are like that, a room
key goes to verified devices only, apart from those that the login started with. -/
theorem verified_iff : (∀ deviceKeys : QueryKeys, (∀ w : World O, OnlyVerified deviceKeys w.storage
      (left ((queriedKeys (some deviceKeys)).run w)).storage) ↔ VerifiedAnswer O deviceKeys) ∧
    ∀ (v w : World O) (events : List (Event O)), Run step Careful v events w →
      ∀ s ∈ w.shares, s ∈ v.shares ∨ v.HasDevice s.user s.dev ∨
        ∃ e ∈ events, Vouches e s.user s.dev :=
  ⟨onlyVerified_iff, fun _ _ _ => shares_vouched⟩

/-! ## A forged device -/

section Forged

/-- An answer with one device of a user, and what is in the place of its signature. -/
def oneDevice (user dev signature : Bytes) : QueryKeys :=
  OrdMap.empty.set user (OrdMap.empty.set dev {
    userId := user
    deviceId := dev
    keys := (OrdMap.empty.set (edIndex dev) (bytes "signed")).set (curveIndex dev) (bytes "curve")
    signatures := OrdMap.empty.set user (OrdMap.empty.set (edIndex dev) signature) })

/-- It applies to a device with its signature. -/
theorem verified_iff_signed (w : World plain) : OnlyVerified
    (oneDevice (bytes "@alice:hs") (bytes "A1") (bytes "signed")) w.storage (left
      ((queriedKeys (some (oneDevice (bytes "@alice:hs") (bytes "A1") (bytes "signed")))).run
        w)).storage :=
  ((verified_iff plain).1 _).mpr (by decide +kernel) w

/-- The signature does not verify, and the device is listed. -/
theorem forged_listed : ¬ ∀ (deviceKeys : QueryKeys) (w : World plain),
    OnlyVerified deviceKeys w.storage (left ((queriedKeys (some deviceKeys)).run w)).storage := by
  intro all
  have verified := (onlyVerified_iff (O := plain)
    (oneDevice (bytes "@alice:hs") (bytes "A1") (bytes "forged"))).mp (all _)
  revert verified
  decide +kernel

end Forged

end Piac.Matrix
