/-
# Client.KeyOwners — whose keys a room key is encrypted with

`save_device_keys` keeps the keys of a device under its id alone, and keeps the first ones.
`given` lists what the answers to key queries give, by user and device, `firstKeys` and
`latest` what came first for an id and last for a user's device.

* `shareRoomKey_uses`, `claimedKey_uses`: both ways to encrypt a room key take the keys that
  are kept under the id (`usedKeys`);
* `afterAnswers_keys`: those are the first that any answer gave for it;
* `keys_belong`: so they are those of the user's device exactly if the first keys for its id
  are the latest for that device.
-/
import Piac.Theory.Latest
import Piac.Client.Parsing

namespace Piac.Matrix

set_option autoImplicit false

open Piac.Theory.CppString Piac.Theory Piac.Theory.Latest

variable {O : Mtx}

/-! ## Keys in use -/

/-- `g_storage.device_keys[ dev ]`. -/
def World.usedKeys (w : World O) (dev : Bytes) : DevKeys :=
  (w.storage.deviceKeys.get? dev).getD ⟨[], []⟩

/-- A room key goes to no other device, and is encrypted with these keys. -/
def encrypting (O : Mtx) (payload : RoomKey) (member dev : Bytes) (keys : DevKeys) : Limits :=
  { act := fun act => match act with
      | .toDevice _ user device roomKey content => user = member ∧ device = dev ∧
          roomKey = payload ∧ ∃ account session,
            content = (O.createOlmEncryptedContent account session payload member keys).1
      | _ => True
    callback := fun _ => True
    member := fun _ _ => False
    device := fun _ _ => False }

/-- A look at the keys of a device changes none. -/
theorem getD_touch (m : StdMap DevKeys) (dev dev' : Bytes) :
    ((m.touch dev ⟨[], []⟩).get? dev').getD ⟨[], []⟩ = (m.get? dev').getD ⟨[], []⟩ := by
  rw [OrdMap.get?_touch]
  split
  · rfl
  · rfl

theorem shareRoomKey_uses (payload : RoomKey) (member dev : Bytes) (w : World O) :
    MovesFrom (Does (encrypting O payload member dev (w.usedKeys dev))) w
      (shareRoomKey payload member dev) := by
  unfold shareRoomKey
  refine Moves.from_bind (changeStorage_does (by intro s; rfl) (by intro s; rfl) w)
    fun _ t touched _ => ?_
  cases touched
  unfold MovesFrom
  rw [run_get_bind]
  dsimp only
  rw [getD_touch]
  -- the keys that were there before are looked up
  change MovesFrom (Does (encrypting O payload member dev (w.usedKeys dev))) _ _
  split
  · refine Moves.bind olmclient_does (fun olm => ?_) _
    refine .bind (changeStorage_does (by intro s; rfl) (by intro s; rfl)) fun _ => ?_
    exact request_does ⟨rfl, rfl, rfl, _, _, rfl⟩
  · exact requestWith_does trivial trivial _

theorem claimedKey_uses (payload : RoomKey) (member dev : Bytes) (otk : Option Bytes)
    (w : World O) :
    MovesFrom (Does (encrypting O payload member dev (w.usedKeys dev))) w
      (claimedKey member dev payload otk) := by
  cases otk with
  | none => exact Does.refl w
  | some otk =>
      unfold claimedKey
      refine Moves.from_bind (changeStorage_does (by intro s; rfl) (by intro s; rfl) w)
        fun _ t touched _ => ?_
      cases touched
      unfold MovesFrom
      rw [run_get_bind]
      dsimp only
      rw [getD_touch]
      change MovesFrom (Does (encrypting O payload member dev (w.usedKeys dev))) _ _
      refine Moves.bind olmclient_does (fun olm => ?_) _
      split
      · exact .throw _
      · refine .bind (changeStorage_does (by intro s; rfl) (by intro s; rfl)) fun _ => ?_
        exact request_does ⟨rfl, rfl, rfl, _, _, rfl⟩

/-! ## What is given -/

/-- The device id and the keys that an entry of an answer gives. -/
def keysOf (device : Bytes × DeviceKeys) : Option (Bytes × DevKeys) :=
  match device.2.keys.get? (curveIndex device.2.deviceId),
      device.2.keys.get? (edIndex device.2.deviceId) with
  | some curve25519, some ed25519 => some (device.2.deviceId, ⟨ed25519, curve25519⟩)
  | _, _ => none

/-- The keys that an answer gives, by user and device id. -/
abbrev Given := List ((Bytes × Bytes) × DevKeys)

def givenBy (user : Bytes × StdMap DeviceKeys) : Given :=
  (user.2.entries.filterMap keysOf).map fun given => ((user.1, given.1), given.2)

def given (answers : List QueryKeys) : Given :=
  answers.flatMap fun answer => answer.entries.flatMap givenBy

/-- The keys that were given first for a device id, to whichever user. -/
def firstKeys (dev : Bytes) (log : Given) : Option DevKeys :=
  (log.find? fun e => e.1.2 = dev).map Prod.snd

/-- The state after the answers to key queries. -/
def afterAnswers (answers : List QueryKeys) (w : World O) : World O :=
  attempts (fun answer => queriedKeys (some answer)) answers w

/-- Each answer is handled to its end. -/
def HandledRun (w : World O) (answers : List QueryKeys) : Prop :=
  ∀ before answer after, answers = before ++ answer :: after →
    ¬ VerificationThrows O answer ∧
      Complete (Knows (afterAnswers before w)) (devicesOf answer.entries)

/-- The user's device has been listed. -/
def EverListed (answers : List QueryKeys) (user dev : Bytes) : Prop :=
  ∃ answer ∈ answers, Lists answer.entries user dev

/-! ## What is kept -/

theorem firstKeys_append (dev : Bytes) (log later : Given) :
    firstKeys dev (log ++ later) = (firstKeys dev log).or (firstKeys dev later) := by
  unfold firstKeys
  rw [List.find?_append]
  cases log.find? fun e => e.1.2 = dev <;> rfl

theorem firstKeys_cons (dev : Bytes) (e : (Bytes × Bytes) × DevKeys) (log : Given) :
    firstKeys dev (e :: log) = (if e.1.2 = dev then some e.2 else none).or (firstKeys dev log) := by
  unfold firstKeys
  rw [List.find?_cons]
  by_cases here : e.1.2 = dev <;> simp [here]

theorem keepKeys_keys {w t : World O} {keyStruct : DeviceKeys} {curve25519 : Bytes}
    (ran : (keepKeys keyStruct curve25519).run w = .ok () t) (dev : Bytes) :
    t.storage.deviceKeys.get? dev = (w.storage.deviceKeys.get? dev).or
      (if keyStruct.deviceId = dev then
        (keyStruct.keys.get? (edIndex keyStruct.deviceId)).map (⟨·, curve25519⟩) else none) := by
  unfold keepKeys at ran
  rw [run_get_bind] at ran
  cases known : w.storage.deviceKeys.get? keyStruct.deviceId with
  | some keys =>
      rw [OrdMap.contains, known] at ran
      cases ran
      split
      · rename_i same
        rw [← same, known]
        rfl
      · rw [Option.or_none]
  | none =>
      rw [OrdMap.contains, known] at ran
      cases ed : keyStruct.keys.get? (edIndex keyStruct.deviceId) with
      | none =>
          simp only [ed] at ran
          cases ran
      | some ed25519 =>
          simp only [ed] at ran
          cases ran
          show (w.storage.deviceKeys.set keyStruct.deviceId ⟨ed25519, curve25519⟩).get? dev = _
          rw [OrdMap.get?_set]
          split
          · rename_i same
            rw [← same, known]
            rfl
          · rw [Option.or_none]

/-- An entry gives its keys first, if it gives any. -/
theorem firstKeys_keysOf {device : Bytes × DeviceKeys} {curve25519 : Bytes} (user dev : Bytes)
    (rest : List (Bytes × DeviceKeys))
    (curve : device.2.keys.get? (curveIndex device.2.deviceId) = some curve25519) :
    firstKeys dev (((device :: rest).filterMap keysOf).map fun g => ((user, g.1), g.2)) =
      (if device.2.deviceId = dev then
          (device.2.keys.get? (edIndex device.2.deviceId)).map (⟨·, curve25519⟩) else none).or
        (firstKeys dev ((rest.filterMap keysOf).map fun g => ((user, g.1), g.2))) := by
  rw [List.filterMap_cons, keysOf, curve]
  cases device.2.keys.get? (edIndex device.2.deviceId) with
  | none => simp
  | some ed25519 => exact firstKeys_cons dev _ _

theorem saveDevices_keys {w t : World O} {devices : List (Bytes × DeviceKeys)}
    {deviceList list : List Bytes} (user : Bytes)
    (ran : (saveDevices deviceList devices).run w = .ok list t) (dev : Bytes) :
    t.storage.deviceKeys.get? dev = (w.storage.deviceKeys.get? dev).or
      (firstKeys dev ((devices.filterMap keysOf).map fun g => ((user, g.1), g.2))) := by
  induction devices generalizing deviceList w with
  | nil =>
      cases ran
      exact (Option.or_none).symm
  | cons device rest ih =>
      obtain ⟨id, keyStruct⟩ := device
      unfold saveDevices at ran
      cases curve : keyStruct.keys.get? (curveIndex keyStruct.deviceId) with
      | none =>
          simp only [curve] at ran
          have nothing : keysOf (id, keyStruct) = none := by
            rw [keysOf, curve]
          rw [ih ran, List.filterMap_cons, nothing]
      | some curve25519 =>
          simp only [curve, EStateM.run_bind] at ran
          cases kept : (keepKeys keyStruct curve25519).run w with
          | error e t' =>
              rw [kept] at ran
              cases ran
          | ok a t' =>
              rw [kept] at ran
              rw [ih ran, keepKeys_keys kept, firstKeys_keysOf user dev rest curve, Option.or_assoc]

theorem saveDeviceKeys_keys {w t : World O} {entries : List (Bytes × StdMap DeviceKeys)}
    (ran : (saveDeviceKeys entries).run w = .ok () t) (dev : Bytes) :
    t.storage.deviceKeys.get? dev =
      (w.storage.deviceKeys.get? dev).or (firstKeys dev (entries.flatMap givenBy)) := by
  induction entries generalizing w with
  | nil =>
      cases ran
      exact (Option.or_none).symm
  | cons entry rest ih =>
      obtain ⟨userId, devices⟩ := entry
      unfold saveDeviceKeys at ran
      cases saved : (saveDevices [] devices.entries).run w with
      | error e t' =>
          rw [run_bind_error saved] at ran
          cases ran
      | ok list t' =>
          rw [run_bind_ok saved, run_bind_ok (changeStorage_run _ _)] at ran
          rw [ih ran, List.flatMap_cons, firstKeys_append, ← Option.or_assoc]
          exact congrArg (Option.or · _) (saveDevices_keys userId saved dev)

/-- An answer that is handled keeps the keys it gives first for new ids, and knows what it
lists. -/
theorem queriedKeys_keys {w : World O} {answer : QueryKeys}
    (handled : ¬ VerificationThrows O answer ∧ Complete (Knows w) (devicesOf answer.entries)) :
    ∃ t, (queriedKeys (some answer)).run w = .ok () t ∧
      ∀ dev, t.storage.deviceKeys.get? dev =
        (w.storage.deviceKeys.get? dev).or (firstKeys dev (answer.entries.flatMap givenBy)) := by
  obtain ⟨t, ran⟩ := (queriedKeys_iff answer w).mpr handled
  refine ⟨t, ran, saveDeviceKeys_keys ?_⟩
  rw [queriedKeys_run, if_neg handled.1] at ran
  exact ran

/-- **The keys that are kept for an id are the first that were given for it.** -/
theorem afterAnswers_keys {w : World O} {answers : List QueryKeys} (handled : HandledRun w answers)
    (dev : Bytes) : (afterAnswers answers w).storage.deviceKeys.get? dev =
      (w.storage.deviceKeys.get? dev).or (firstKeys dev (given answers)) := by
  induction answers generalizing w with
  | nil => exact (Option.or_none).symm
  | cons answer rest ih =>
      obtain ⟨here, later⟩ := forall_split_cons.mp handled
      obtain ⟨t, ran, keys⟩ := queriedKeys_keys (w := w) here
      have whole : given (answer :: rest) = answer.entries.flatMap givenBy ++ given rest :=
        List.flatMap_cons
      have next : left ((queriedKeys (some answer)).run w) = t := by rw [ran]; rfl
      have rest_ : HandledRun t rest := by
        rw [← next]
        exact later
      show (afterAnswers rest (left ((queriedKeys (some answer)).run w))).storage.deviceKeys.get?
        dev = _
      rw [whole, firstKeys_append, next, ← Option.or_assoc, ← keys]
      exact ih rest_

/-! ## Whose keys they are -/

theorem firstKeys_isSome {dev : Bytes} {log : Given} :
    (firstKeys dev log).isSome = true ↔ ∃ e ∈ log, e.1.2 = dev := by
  unfold firstKeys
  rw [Option.isSome_map, List.find?_isSome]
  simp only [decide_eq_true_eq]

/-- What is listed of complete devices was known, or has keys in the answer. -/
theorem complete_known {known : Bytes → Prop} {devices : List (Bytes × DeviceKeys)} {dev : Bytes}
    (complete : Complete known devices) (inside : dev ∈ devices.filterMap listed) :
    known dev ∨ ∃ keys, (dev, keys) ∈ devices.filterMap keysOf := by
  induction devices generalizing known with
  | nil => cases inside
  | cons device rest ih =>
      obtain ⟨first, later⟩ := complete
      have here : listed device = some dev →
          known dev ∨ ∃ keys, (dev, keys) ∈ (device :: rest).filterMap keysOf := by
        intro its
        refine (first dev its).imp_right fun ed => ?_
        have curve : (device.2.keys.get? (curveIndex device.2.deviceId)).isSome = true ∧
            device.2.deviceId = dev := by
          unfold listed at its
          split at its
          · rename_i curve
            cases its
            exact ⟨curve, rfl⟩
          · cases its
        obtain ⟨curve, rfl⟩ := curve
        obtain ⟨curve25519, curve⟩ := Option.isSome_iff_exists.mp curve
        obtain ⟨ed25519, ed⟩ := Option.isSome_iff_exists.mp ed
        refine ⟨⟨ed25519, curve25519⟩, List.mem_filterMap.mpr ⟨device, List.mem_cons_self, ?_⟩⟩
        rw [keysOf, curve, ed]
      obtain ⟨other, among, its⟩ := List.mem_filterMap.mp inside
      rcases List.mem_cons.mp among with rfl | inRest
      · exact here its
      · rcases ih later (List.mem_filterMap.mpr ⟨other, inRest, its⟩) with (old | now) | ⟨keys, given⟩
        · exact .inl old
        · exact here now
        · obtain ⟨d, listed_, eq⟩ := List.mem_filterMap.mp given
          exact .inr ⟨keys, List.mem_filterMap.mpr ⟨d, List.mem_cons_of_mem _ listed_, eq⟩⟩

theorem mem_given {answer : QueryKeys} {dev : Bytes} {keys : DevKeys}
    (inside : (dev, keys) ∈ (devicesOf answer.entries).filterMap keysOf) :
    ∃ e ∈ answer.entries.flatMap givenBy, e.1.2 = dev := by
  obtain ⟨device, among, its⟩ := List.mem_filterMap.mp inside
  obtain ⟨user, listed_, its'⟩ := List.mem_flatMap.mp among
  refine ⟨((user.1, dev), keys), List.mem_flatMap.mpr ⟨user, listed_, ?_⟩, rfl⟩
  exact List.mem_map.mpr ⟨(dev, keys), List.mem_filterMap.mpr ⟨device, its', its⟩, rfl⟩

/-- What was listed has keys. -/
theorem firstKeys_of_listed {w : World O} {answers : List QueryKeys} {user dev : Bytes}
    (fresh : w.storage.deviceKeys = .empty) (handled : HandledRun w answers)
    (everListed : EverListed answers user dev) :
    ∃ keys, firstKeys dev (given answers) = some keys := by
  rw [← Option.isSome_iff_exists]
  obtain ⟨answer, among, devices, member, inside⟩ := everListed
  obtain ⟨before, after, split⟩ := List.append_of_mem among
  have complete := (handled before answer after split).2
  have here : dev ∈ (devicesOf answer.entries).filterMap listed := by
    obtain ⟨device, its, eq⟩ := List.mem_filterMap.mp inside
    exact List.mem_filterMap.mpr ⟨device, List.mem_flatMap.mpr ⟨_, member, its⟩, eq⟩
  have handledBefore : HandledRun w before := fun first a rest eq =>
    handled first a (rest ++ answer :: after)
      (by rw [split, eq, List.append_assoc, List.cons_append])
  have whole : given answers = given before ++ (answer.entries.flatMap givenBy ++ given after) := by
    rw [split]
    show (before ++ answer :: after).flatMap _ = _
    rw [List.flatMap_append, List.flatMap_cons]
    rfl
  have spot : ∃ e ∈ given answers, e.1.2 = dev := by
    rw [whole]
    rcases complete_known complete here with known | ⟨keys, now⟩
    · unfold Knows OrdMap.contains at known
      rw [afterAnswers_keys handledBefore, fresh, OrdMap.get?_empty, Option.none_or,
        firstKeys_isSome] at known
      obtain ⟨e, early, its⟩ := known
      exact ⟨e, List.mem_append_left _ early, its⟩
    · obtain ⟨e, given_, its⟩ := mem_given now
      exact ⟨e, List.mem_append_right _ (List.mem_append_left _ given_), its⟩
  exact firstKeys_isSome.mpr spot

/-- **Device keys belong to their user exactly if** the first keys that were given for the id are
the latest for that device of that user: in the state after any answers, each of them
handled to its end, the keys with which a room key is encrypted for a listed device, by
either path, are the latest of that device if and only if the first are. -/
theorem keys_belong (w : World O) (fresh : w.storage.deviceKeys = .empty)
    (answers : List QueryKeys) (handled : HandledRun w answers) :
    ((∀ user dev, EverListed answers user dev →
        latest (user, dev) (given answers) = some ((afterAnswers answers w).usedKeys dev)) ↔
      ∀ user dev, EverListed answers user dev → ∃ keys,
        firstKeys dev (given answers) = some keys ∧
          latest (user, dev) (given answers) = some keys) ∧
    ∀ (payload : RoomKey) (user dev : Bytes) (otk : Option Bytes) (v : World O),
      MovesFrom (Does (encrypting O payload user dev (v.usedKeys dev))) v
          (shareRoomKey payload user dev) ∧
        MovesFrom (Does (encrypting O payload user dev (v.usedKeys dev))) v
          (claimedKey user dev payload otk) := by
  refine ⟨forall₂_congr fun user dev => forall_congr' fun everListed => ?_,
    fun payload user dev otk v =>
      ⟨shareRoomKey_uses payload user dev v, claimedKey_uses payload user dev otk v⟩⟩
  obtain ⟨keys, first⟩ := firstKeys_of_listed fresh handled everListed
  have used : (afterAnswers answers w).usedKeys dev = keys := by
    unfold World.usedKeys
    rw [afterAnswers_keys handled, fresh, OrdMap.get?_empty, Option.none_or, first]
    rfl
  rw [used, first]
  constructor
  · intro last
    exact ⟨keys, rfl, last⟩
  · rintro ⟨_, same, last⟩
    cases same
    exact last

/-! ## Two phones -/

/-- An answer with the device PHONE of a user. -/
def phone (user : Bytes) (keys : DevKeys) : QueryKeys :=
  OrdMap.empty.set user (OrdMap.empty.set (bytes "PHONE") {
    userId := user
    deviceId := bytes "PHONE"
    keys := (OrdMap.empty.set (edIndex (bytes "PHONE")) keys.ed25519).set
      (curveIndex (bytes "PHONE")) keys.curve25519
    signatures :=
      OrdMap.empty.set user (OrdMap.empty.set (edIndex (bytes "PHONE")) keys.ed25519) })

theorem phone_handled (known : Bytes → Prop) (user : Bytes) (keys : DevKeys) :
    ¬ VerificationThrows plain (phone user keys) ∧
      Complete known (devicesOf (phone user keys).entries) := by
  have apart : ¬ curveIndex (bytes "PHONE") = edIndex (bytes "PHONE") := by decide +kernel
  refine ⟨?_, fun dev its => .inr ?_, trivial⟩
  · rintro ⟨u, among, device, its, throws⟩
    cases List.mem_singleton.mp among
    cases List.mem_singleton.mp its
    have index : bytes "ed25519:" ++ bytes "PHONE" = edIndex (bytes "PHONE") := rfl
    simp only [plain, index] at throws
    rw [OrdMap.get?_set_self, Option.bind_some, OrdMap.get?_set_self] at throws
    cases throws
  · unfold listed at its
    split at its
    · cases its
      show (((OrdMap.empty.set _ _).set _ _).get? (edIndex (bytes "PHONE"))).isSome = true
      rw [OrdMap.get?_set, if_neg apart, OrdMap.get?_set_self]
      rfl
    · cases its

def alicesKeys : DevKeys := ⟨bytes "alice ed", bytes "alice curve"⟩

def mallorysKeys : DevKeys := ⟨bytes "mallory ed", bytes "mallory curve"⟩

theorem lists_phone {user user' dev : Bytes} {keys : DevKeys}
    (lists : Lists (phone user keys).entries user' dev) : user' = user ∧ dev = bytes "PHONE" := by
  obtain ⟨devices, among, inside⟩ := lists
  cases List.mem_singleton.mp among
  obtain ⟨device, its, listed_⟩ := List.mem_filterMap.mp inside
  cases List.mem_singleton.mp its
  unfold listed at listed_
  split at listed_
  · cases listed_
    exact ⟨rfl, rfl⟩
  · cases listed_

theorem keys_belong_alice :
    latest (bytes "@alice:hs", bytes "PHONE") (given [phone (bytes "@alice:hs") alicesKeys]) =
      some ((afterAnswers [phone (bytes "@alice:hs") alicesKeys]
        (online plain (1 : Nat))).usedKeys (bytes "PHONE")) := by
  refine (keys_belong (online plain (1 : Nat)) rfl [phone (bytes "@alice:hs") alicesKeys] ?_).1.mpr
    ?_ _ _ ⟨phone (bytes "@alice:hs") alicesKeys, List.mem_singleton_self _, _,
      List.mem_singleton_self _, by decide +kernel⟩
  · exact forall_split_cons.mpr ⟨phone_handled _ _ _, fun before a after split => by simp at split⟩
  · rintro user dev ⟨answer, among, lists⟩
    cases List.mem_singleton.mp among
    obtain ⟨rfl, rfl⟩ := lists_phone lists
    exact ⟨alicesKeys, by decide +kernel, by decide +kernel⟩

/-- A room key for alice's phone is encrypted with the keys of mallory's, which were given
first. -/
theorem keys_of_another :
    (afterAnswers [phone (bytes "@mallory:hs") mallorysKeys, phone (bytes "@alice:hs") alicesKeys]
      (online plain (1 : Nat))).usedKeys (bytes "PHONE") = mallorysKeys ∧
    ¬ ∀ (answers : List QueryKeys) user dev, EverListed answers user dev →
      latest (user, dev) (given answers) =
        some ((afterAnswers answers (online plain (1 : Nat))).usedKeys dev) := by
  have handled : HandledRun (online plain (1 : Nat))
      [phone (bytes "@mallory:hs") mallorysKeys, phone (bytes "@alice:hs") alicesKeys] :=
    forall_split_cons.mpr ⟨phone_handled _ _ _, forall_split_cons.mpr ⟨phone_handled _ _ _,
      fun before a after split => by simp at split⟩⟩
  have used : (afterAnswers [phone (bytes "@mallory:hs") mallorysKeys,
      phone (bytes "@alice:hs") alicesKeys] (online plain (1 : Nat))).usedKeys (bytes "PHONE") =
        mallorysKeys := by
    unfold World.usedKeys
    rw [afterAnswers_keys handled]
    decide +kernel
  refine ⟨used, fun all => ?_⟩
  have last := all [phone (bytes "@mallory:hs") mallorysKeys, phone (bytes "@alice:hs") alicesKeys]
    (bytes "@alice:hs") (bytes "PHONE")
    ⟨phone (bytes "@alice:hs") alicesKeys, by simp, _, List.mem_singleton.mpr rfl,
      by decide +kernel⟩
  rw [used] at last
  revert last
  decide +kernel

end Piac.Matrix
