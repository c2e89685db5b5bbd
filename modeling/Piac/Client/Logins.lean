/-
# Client.Logins — one login after another

The storage is one for the whole process, and a login loads its files into what is
there: it loads nothing without an account, assigns four maps, sets entries in five
others, and takes over a device id and an access token only from a file that has them,
which no file has that the client wrote.

* `Untouched`: nothing of an earlier login would be left in the storage;
* `loadObject_eq_iff`: what is loaded does not depend on the old storage exactly then;
* `isolated_iff`: these are the logins that go on as in a new process with the same
  files.
-/
import Piac.Client.Devices
import Piac.Daemon.Platform

namespace Piac.Matrix

set_option autoImplicit false

open Piac.Theory.CppString Piac.Theory Piac.Theory.Transition

variable {O : Mtx} {w w' : World O}

/-! ## What a login finds -/

/-- The file has a value for each key of the map. -/
def Covers {α β : Type} (field : Field (StdMap α)) (old : StdMap β) : Prop :=
  ∀ k, old.contains k = true → ∃ m, field = .value m ∧ m.contains k = true

/-- What the file does not give was empty. -/
structure Covered (obj : SessionFile) (s : Storage O) : Prop where
  deviceId : (∃ id, obj.deviceId = .value id) ∨ s.deviceId = []
  accessToken : (∃ id token, obj.deviceId = .value id ∧ obj.accessToken = .value token) ∨
    s.accessToken = []
  olmInboundSessions : Covers obj.olmInboundSessions s.olmInboundSessions
  olmOutboundSessions : Covers obj.olmOutboundSessions s.olmOutboundSessions
  inboundGroupSessions : Covers obj.inboundGroupSessions s.inboundGroupSessions
  outboundGroupSessions : Covers obj.outboundGroupSessions s.outboundGroupSessions
  outboundGroupSessionData : Covers obj.outboundGroupSessionData s.outboundGroupSessionData

/-- The token is only read behind a device id. -/
theorem loadCredentials_eq_iff {obj : SessionFile} {deviceId accessToken : Bytes} :
    Storage.loadCredentials obj (deviceId, accessToken) = Storage.loadCredentials obj ([], []) ↔
      ((∃ id, obj.deviceId = .value id) ∨ deviceId = []) ∧
        ((∃ id token, obj.deviceId = .value id ∧ obj.accessToken = .value token) ∨
          accessToken = []) := by
  unfold Storage.loadCredentials
  cases obj.deviceId <;> cases obj.accessToken <;> simp

/-! ## Sessions -/

theorem merge_set {α : Type} (old m : StdMap α) (k : Bytes) (v : α) :
    (old.merge m).set k v = old.merge (m.set k v) := by
  refine OrdMap.ext_get? fun k' => ?_
  rw [OrdMap.get?_set, OrdMap.get?_merge, OrdMap.get?_merge, OrdMap.get?_set]
  split <;> rfl

section Sessions

open Storage

variable {α : Type} {unpickle : Bytes → Option α}

/-- The sessions of a file are set in the old map as in an empty one. -/
theorem foldlM_merge (old m : StdMap α) (entries : List (Bytes × Bytes)) :
    entries.foldlM (loadSession unpickle) (old.merge m) =
      (entries.foldlM (loadSession unpickle) m).map old.merge := by
  induction entries generalizing m with
  | nil => rfl
  | cons e rest ih =>
      rw [List.foldlM_cons, List.foldlM_cons, loadSession, loadSession]
      cases unpickle e.2 with
      | none => rfl
      | some session =>
          show List.foldlM _ ((old.merge m).set e.1 session) rest = _
          rw [merge_set]
          exact ih _

theorem loadSessions_eq (old : StdMap α) (field : Field (StdMap Bytes)) :
    loadSessions unpickle old field = (loadSessions unpickle .empty field).map old.merge := by
  cases field with
  | absent => rfl
  | malformed => rfl
  | value sessions => exact foldlM_merge old .empty sessions.entries

theorem foldlM_contains {m r : StdMap α} {entries : List (Bytes × Bytes)}
    (done : entries.foldlM (loadSession unpickle) m = .ok r) (k : Bytes) :
    r.contains k = true ↔ m.contains k = true ∨ ∃ v, (k, v) ∈ entries := by
  induction entries generalizing m with
  | nil =>
      cases done
      simp
  | cons e rest ih =>
      rw [List.foldlM_cons, loadSession] at done
      cases found : unpickle e.2 with
      | none =>
          rw [found] at done
          cases done
      | some session =>
          rw [found] at done
          have set_ : (m.set e.1 session).contains k = true ↔ e.1 = k ∨ m.contains k = true := by
            rw [OrdMap.contains, OrdMap.get?_set]
            split
            · rename_i same
              exact iff_of_true rfl (.inl same)
            · rename_i other
              exact (or_iff_right other).symm
          have first : (∃ v, (k, v) ∈ e :: rest) ↔ e.1 = k ∨ ∃ v, (k, v) ∈ rest := by
            obtain ⟨k', v'⟩ := e
            simp only [List.mem_cons, Prod.mk.injEq, exists_or, exists_and_left, exists_eq, and_true]
            exact or_congr_left eq_comm
          rw [ih done, set_, first, or_assoc, or_left_comm]

/-- Nothing of the old map is left exactly when the file covers it. -/
theorem loadSessions_covers {old r : StdMap α} {field : Field (StdMap Bytes)}
    (done : loadSessions unpickle .empty field = .ok r) : old.merge r = r ↔ Covers field old := by
  rw [OrdMap.merge_eq_right_iff]
  refine forall_congr' fun k => forall_congr' fun _ => ?_
  cases field with
  | absent =>
      cases done
      exact iff_of_false nofun nofun
  | malformed => cases done
  | value sessions =>
      have empty_ : ¬ (OrdMap.empty : StdMap α).contains k = true := nofun
      rw [foldlM_contains done, or_iff_right empty_]
      constructor
      · rintro ⟨v, member⟩
        exact ⟨sessions, rfl, OrdMap.contains_iff.mpr ⟨v, OrdMap.get?_eq_some.mpr member⟩⟩
      · rintro ⟨m, same, has⟩
        cases same
        exact (OrdMap.contains_iff.mp has).imp fun v found => OrdMap.get?_eq_some.mp found

theorem loadData_eq (old : StdMap OutboundSessionData) (field : Field (StdMap OutboundSessionData)) :
    loadData old field = (loadData .empty field).map old.merge := by
  cases field with
  | absent => rfl
  | malformed => rfl
  | value sessions => exact congrArg Except.ok (congrArg old.merge (OrdMap.empty_merge _).symm)

theorem loadData_covers {old r : StdMap OutboundSessionData}
    {field : Field (StdMap OutboundSessionData)} (done : loadData .empty field = .ok r) :
    old.merge r = r ↔ Covers field old := by
  rw [OrdMap.merge_eq_right_iff]
  refine forall_congr' fun k => forall_congr' fun _ => ?_
  cases field with
  | absent =>
      cases done
      exact iff_of_false nofun nofun
  | malformed => cases done
  | value sessions =>
      cases done
      rw [OrdMap.empty_merge]
      refine ⟨fun has => ⟨sessions, rfl, has⟩, fun ⟨m, same, has⟩ => ?_⟩
      cases same
      exact has

end Sessions

/-! ## The storage -/

/-- What is loaded of a file into a storage: the file itself, over what was there. -/
def overlaid (s t : Storage O) (obj : SessionFile) : Storage O :=
  { t with
    deviceId := (Storage.loadCredentials obj (s.deviceId, s.accessToken)).1
    accessToken := (Storage.loadCredentials obj (s.deviceId, s.accessToken)).2
    olmInboundSessions := s.olmInboundSessions.merge t.olmInboundSessions
    olmOutboundSessions := s.olmOutboundSessions.merge t.olmOutboundSessions
    inboundGroupSessions := s.inboundGroupSessions.merge t.inboundGroupSessions
    outboundGroupSessions := s.outboundGroupSessions.merge t.outboundGroupSessions
    outboundGroupSessionData := s.outboundGroupSessionData.merge t.outboundGroupSessionData }

theorem loadObject_eq (s : Storage O) (key : Bytes) (obj : SessionFile) :
    s.loadObject key obj = ((Storage.init : Storage O).loadObject key obj).map fun t => overlaid s t obj := by
  unfold Storage.loadObject
  rw [loadSessions_eq s.olmInboundSessions, loadSessions_eq s.olmOutboundSessions,
    loadSessions_eq s.inboundGroupSessions, loadSessions_eq s.outboundGroupSessions,
    loadData_eq s.outboundGroupSessionData]
  simp only [show (Storage.init : Storage O).olmInboundSessions = .empty from rfl,
    show (Storage.init : Storage O).olmOutboundSessions = .empty from rfl,
    show (Storage.init : Storage O).inboundGroupSessions = .empty from rfl,
    show (Storage.init : Storage O).outboundGroupSessions = .empty from rfl,
    show (Storage.init : Storage O).outboundGroupSessionData = .empty from rfl]
  -- the same member ends both, if one does
  rcases Storage.required obj.devices with thrown | devices
  · rfl
  rcases Storage.required obj.deviceKeys with thrown | deviceKeys
  · rfl
  rcases Storage.required obj.encryptedRooms with thrown | encryptedRooms
  · rfl
  rcases Storage.required obj.members with thrown | members
  · rfl
  rcases Storage.loadSessions (O.unpickleSession · key) .empty obj.olmInboundSessions
    with thrown | olmInboundSessions
  · rfl
  rcases Storage.loadSessions (O.unpickleSession · key) .empty obj.olmOutboundSessions
    with thrown | olmOutboundSessions
  · rfl
  rcases Storage.loadSessions (O.unpickleInbound · key) .empty obj.inboundGroupSessions
    with thrown | inboundGroupSessions
  · rfl
  rcases Storage.loadSessions (fun p => (O.unpickleOutbound p key).map some) .empty
    obj.outboundGroupSessions with thrown | outboundGroupSessions
  · rfl
  rcases Storage.loadData .empty obj.outboundGroupSessionData with thrown | data
  · rfl
  · rfl

/-- The parts of a storage that a file is loaded into. -/
theorem loadObject_parts {t : Storage O} {key : Bytes} {obj : SessionFile}
    (done : (Storage.init : Storage O).loadObject key obj = .ok t) :
    Storage.loadCredentials obj ([], []) = (t.deviceId, t.accessToken) ∧
      Storage.loadSessions (O.unpickleSession · key) .empty obj.olmInboundSessions =
        .ok t.olmInboundSessions ∧
      Storage.loadSessions (O.unpickleSession · key) .empty obj.olmOutboundSessions =
        .ok t.olmOutboundSessions ∧
      Storage.loadSessions (O.unpickleInbound · key) .empty obj.inboundGroupSessions =
        .ok t.inboundGroupSessions ∧
      Storage.loadSessions (fun p => (O.unpickleOutbound p key).map some) .empty
        obj.outboundGroupSessions = .ok t.outboundGroupSessions ∧
      Storage.loadData .empty obj.outboundGroupSessionData = .ok t.outboundGroupSessionData := by
  simp only [Storage.loadObject, bind_eq_ok] at done
  obtain ⟨devices, -, deviceKeys, -, rooms, -, members, -, olmIn, olmInLoaded, olmOut, olmOutLoaded,
    inbound, inboundLoaded, outbound, outboundLoaded, data, dataLoaded, done⟩ := done
  cases done
  exact ⟨rfl, olmInLoaded, olmOutLoaded, inboundLoaded, outboundLoaded, dataLoaded⟩

theorem overlaid_eq_iff {s t : Storage O} {key : Bytes} {obj : SessionFile}
    (done : (Storage.init : Storage O).loadObject key obj = .ok t) :
    overlaid s t obj = t ↔ Covered obj s := by
  obtain ⟨credentials, olmIn, olmOut, inbound, outbound, data⟩ := loadObject_parts done
  constructor
  · intro same
    have loaded : Storage.loadCredentials obj (s.deviceId, s.accessToken) =
        (t.deviceId, t.accessToken) :=
      Prod.ext (congrArg Storage.deviceId same) (congrArg Storage.accessToken same)
    have both := loadCredentials_eq_iff.mp (loaded.trans credentials.symm)
    refine ⟨both.1, both.2, ?_, ?_, ?_, ?_, ?_⟩
    · exact (loadSessions_covers olmIn).mp (congrArg Storage.olmInboundSessions same)
    · exact (loadSessions_covers olmOut).mp (congrArg Storage.olmOutboundSessions same)
    · exact (loadSessions_covers inbound).mp (congrArg Storage.inboundGroupSessions same)
    · exact (loadSessions_covers outbound).mp (congrArg Storage.outboundGroupSessions same)
    · exact (loadData_covers data).mp (congrArg Storage.outboundGroupSessionData same)
  · intro covered
    unfold overlaid
    rw [loadCredentials_eq_iff.mpr ⟨covered.deviceId, covered.accessToken⟩, credentials, (loadSessions_covers olmIn).mpr covered.olmInboundSessions,
      (loadSessions_covers olmOut).mpr covered.olmOutboundSessions,
      (loadSessions_covers inbound).mpr covered.inboundGroupSessions,
      (loadSessions_covers outbound).mpr covered.outboundGroupSessions,
      (loadData_covers data).mpr covered.outboundGroupSessionData]

/-- The object of a session file, if there is something in it. -/
def sessionOf (O : Mtx) : Option Bytes → Option SessionFile
  | none | some [] => none
  | some data => O.parseSession data

/-- The session file that a login reads, if it reads one: not without an account. -/
def fileOf (O : Mtx) (account session : Option Bytes) : Option SessionFile :=
  if account.getD [] = [] then none else sessionOf O session

/-- Nothing of an earlier login is left in the storage behind a login that reads the file. -/
def Untouched (s : Storage O) : Option SessionFile → Prop
  | none => s = .init
  | some obj => Covered obj s

/-- The session file is loaded as in a new process. -/
theorem load_eq_iff {s : Storage O} {key : Bytes} {session : Option Bytes} :
    s.load key session = (Storage.init : Storage O).load key session ↔
      (∃ thrown, (Storage.init : Storage O).load key session = .error thrown) ∨
        Untouched s (sessionOf O session) := by
  have kept : (Except.ok s : Except Thrown (Storage O)) = .ok .init ↔
      (∃ thrown, (Except.ok Storage.init : Except Thrown (Storage O)) = .error thrown) ∨
        Untouched s none := by
    constructor
    · intro same
      exact .inr (Except.ok.inj same)
    · rintro (⟨thrown, never⟩ | same)
      · cases never
      · exact congrArg Except.ok same
  cases session with
  | none => exact kept
  | some data =>
      cases data with
      | nil => exact kept
      | cons b text =>
          unfold Storage.load sessionOf
          dsimp only
          cases O.parseSession (b :: text) with
          | none => exact iff_of_true rfl (.inl ⟨_, rfl⟩)
          | some obj =>
              dsimp only
              rw [loadObject_eq]
              cases done : (Storage.init : Storage O).loadObject key obj with
              | error thrown => exact iff_of_true rfl (.inl ⟨_, rfl⟩)
              | ok t =>
                  have same : (Except.ok (overlaid s t obj) : Except Thrown (Storage O)) = .ok t ↔
                      Covered obj s :=
                    ⟨fun same => (overlaid_eq_iff done).mp (Except.ok.inj same),
                      fun covered => congrArg Except.ok ((overlaid_eq_iff done).mpr covered)⟩
                  exact same.trans (or_iff_right nofun).symm

theorem pair_eq_iff {α : Type} {account : α} {x y : Except Thrown (Storage O)} :
    (do let s ← x; pure (account, s)) = (do let s ← y; pure (account, s)) ↔ x = y := by
  refine ⟨fun same => ?_, fun same => same ▸ rfl⟩
  cases x <;> cases y <;> cases same <;> rfl

theorem pair_error_iff {α : Type} {account : α} {x : Except Thrown (Storage O)} :
    (∃ thrown, (do let s ← x; pure (account, s)) = Except.error thrown) ↔
      ∃ thrown, x = .error thrown := by
  cases x with
  | error thrown => exact iff_of_true ⟨thrown, rfl⟩ ⟨thrown, rfl⟩
  | ok s => exact iff_of_false nofun nofun

/-- **What a login loads is what it would load in a new process** exactly when it can load
nothing, or the storage is untouched. -/
theorem loadFiles_eq_iff (s : Storage O) (key : Bytes) (account session : Option Bytes)
    (fresh : O.Account) : loadFiles s key account session fresh =
        loadFiles .init key account session fresh ↔
      (∃ thrown, loadFiles (.init : Storage O) key account session fresh = .error thrown) ∨
        Untouched s (fileOf O account session) := by
  unfold loadFiles fileOf
  cases hasAccount : account.getD [] with
  | nil =>
      rw [if_pos rfl]
      constructor
      · intro same
        cases same
        exact .inr rfl
      · rintro (⟨thrown, never⟩ | same)
        · cases never
        · rw [show s = .init from same]
  | cons b text =>
      rw [if_neg (List.cons_ne_nil b text)]
      dsimp only
      cases O.parseAccount (b :: text) with
      | none => exact iff_of_true rfl (.inl ⟨_, rfl⟩)
      | some pickled =>
          dsimp only
          cases O.loadAccount pickled key with
          | none => exact iff_of_true rfl (.inl ⟨_, rfl⟩)
          | some loaded =>
              exact pair_eq_iff.trans (load_eq_iff.trans (or_congr_left pair_error_iff.symm))

/-! ## Logins -/

/-- While nobody is connected no shutdown is asked for. -/
def Idle (w : World O) : Prop := w.connected = false → w.shutdown = false

theorem idle_init (disk : Bytes → Option Bytes) : Idle (World.init O disk) := fun _ => rfl

theorem idle_step {e : Event O} (idle : Idle w) (stepped : step w e = some w') : Idle w' := by
  have goesOn : w.connected = true → w'.connected = w.connected → Idle w' :=
    fun online same offline => Bool.noConfusion ((same.trans online).symm.trans offline)
  have callback : e.Callback → Idle w' := fun callback =>
    goesOn (callback_step callback stepped).1 (callback_step callback stepped).2.connected
  cases e with
  | opens server username password dbKey fresh =>
      rw [step_opens] at stepped
      split at stepped
      · cases stepped
        exact idle
      · split at stepped
        · cases stepped
          exact idle
        · split at stepped
          · cases stepped
          · cases stepped
            nofun
  | loggedIn res => exact callback trivial
  | keysUploaded login ok => exact callback trivial
  | initialSynced retry res => exact callback trivial
  | synced res => exact callback trivial
  | queriedKeys res =>
      exact goesOn (queriedKeys_step stepped).1 (queriedKeys_step stepped).2.connected
  | message usr ad msg =>
      obtain ⟨client, -, -, ⟨-, rfl⟩ | ⟨-, olm, session, -, -, rfl⟩⟩ := message_step stepped
      · exact idle
      · exact idle
  | created i roomId fresh usr msg =>
      obtain ⟨-, -, online, -, does⟩ := created_step stepped
      exact goesOn online does.connected
  | claimed i res =>
      obtain ⟨member, dev, payload, online, -, does⟩ := claimed_step stepped
      exact goesOn online does.connected
  | disconnect =>
      obtain ⟨online, rfl⟩ := disconnect_step stepped
      exact goesOn online rfl
  | closes =>
      obtain ⟨-, -, obj, olm, -, -, rfl⟩ := closes_step stepped
      exact fun _ => rfl

/-- Whatever follows is as in a new process with the same files. -/
def Isolated (w : World O) (e : Event O) : Prop :=
  ∀ post, exec step w (e :: post) = exec step (World.init O w.disk) (e :: post)

theorem isolated_iff_step {e : Event O} :
    Isolated w e ↔ step w e = step (World.init O w.disk) e := by
  constructor
  · intro isolated
    have first := isolated []
    simpa only [exec, Option.bind_fun_some] using first
  · intro same post
    simp only [exec, same]

section Login

variable {server username password dbKey : Bytes} {fresh : O.Account}

/-- A login from a state in which nobody is connected. -/
theorem step_login (offline : w.connected = false) {host : Bytes} {port : Int}
    (address : serverOf server = some (host, port)) :
    step w (.opens server username password dbKey fresh) =
      (loadFiles w.storage dbKey (w.disk (accountDbOf server username))
        (w.disk (sessionDbOf server username)) fresh).toOption.map fun loaded =>
          w.opened server username password dbKey host port loaded.1 loaded.2 := by
  rw [step_opens, offline, address]
  simp only [Bool.false_eq_true, if_false]
  cases loadFiles w.storage dbKey (w.disk (accountDbOf server username))
    (w.disk (sessionDbOf server username)) fresh <;> rfl

theorem step_login_init {disk : Bytes → Option Bytes} {host : Bytes} {port : Int}
    (address : serverOf server = some (host, port)) :
    step (World.init O disk) (.opens server username password dbKey fresh) =
      (loadFiles .init dbKey (disk (accountDbOf server username))
        (disk (sessionDbOf server username)) fresh).toOption.map fun loaded =>
          (World.init O disk).opened server username password dbKey host port loaded.1 loaded.2 :=
  step_login rfl address

/-- A login in a process that is idle starts as in a new one, apart from the storage. -/
theorem opened_init (idle : w.shutdown = false) (host : Bytes) (port : Int) (account : O.Account)
    (storage : Storage O) :
    (World.init O w.disk).opened server username password dbKey host port account storage =
      w.opened server username password dbKey host port account storage := by
  unfold World.opened
  rw [idle]
  rfl

theorem isolated_iff {disk : Bytes → Option Bytes} {events : List (Event O)}
    (run : Run step (fun _ _ => True) (World.init O disk) events w) (offline : w.connected = false)
    (address : serverOf server ≠ none) :
    Isolated w (.opens server username password dbKey fresh) ↔
      step (World.init O w.disk) (.opens server username password dbKey fresh) = none ∨
        Untouched w.storage (fileOf O (w.disk (accountDbOf server username))
          (w.disk (sessionDbOf server username))) := by
  obtain ⟨⟨host, port⟩, address⟩ := Option.ne_none_iff_exists'.mp address
  have idle : Idle w := run.invariant (idle_init disk)
    fun _ _ _ idle _ stepped => idle_step idle stepped
  have files := loadFiles_eq_iff w.storage dbKey (w.disk (accountDbOf server username))
    (w.disk (sessionDbOf server username)) fresh
  rw [isolated_iff_step, step_login offline address, step_login_init address]
  simp only [opened_init (idle offline)]
  cases loaded : loadFiles (.init : Storage O) dbKey (w.disk (accountDbOf server username))
    (w.disk (sessionDbOf server username)) fresh with
  | error thrown =>
      rw [loaded] at files
      rw [files.mpr (.inl ⟨thrown, rfl⟩)]
      exact iff_of_true rfl (.inl rfl)
  | ok pair =>
      rw [loaded, or_iff_right nofun] at files
      rw [or_iff_right nofun, ← files]
      constructor
      · intro same
        cases here : loadFiles w.storage dbKey (w.disk (accountDbOf server username))
          (w.disk (sessionDbOf server username)) fresh with
        | error thrown =>
            rw [here] at same
            cases same
        | ok pair' =>
            rw [here] at same
            have opened := Option.some.inj same
            have account := congrArg OlmClient.account
              (Option.some.inj (congrArg World.olmclient opened))
            exact congrArg Except.ok (Prod.ext account (congrArg World.storage opened))
      · intro same
        rw [same]

/-- The storage and the client that a login ends with, from the files of the user and what the
server answers. -/
def loginOf (server username password dbKey : Bytes) (fresh : O.Account)
    (account session : Option Bytes) (res : Login) : Option (Storage O × Option HttpClient) :=
  (serverOf server).bind fun (host, port) =>
    (loadFiles .init dbKey account session fresh).toOption.map fun loaded =>
      let credentials := loaded.2.credentials res
      let client := { HttpClient.make host port with
        userId := res.userId, sent := [.login username password, .uploadKeys] }
      (loaded.2.identify credentials, some (client.identify credentials))

theorem login_init {disk : Bytes → Option Bytes} (res : Login) :
    (exec step (World.init O disk) [.opens server username password dbKey fresh,
        .loggedIn (some res)]).map (fun w => (w.storage, w.mtxclient)) =
      loginOf server username password dbKey fresh (disk (accountDbOf server username))
        (disk (sessionDbOf server username)) res := by
  unfold loginOf
  cases address : serverOf server with
  | none =>
      simp only [exec, step_opens, address]
      rfl
  | some at_ =>
      obtain ⟨host, port⟩ := at_
      simp only [exec, step_login_init address]
      cases loadFiles (.init : Storage O) dbKey (disk (accountDbOf server username))
        (disk (sessionDbOf server username)) fresh with
      | error thrown => rfl
      | ok loaded => rfl

/-- **A login goes on as in a new process exactly when the storage is untouched**, or its files
cannot be loaded and end the process; and then its storage and its client are made of the user's
own files and the answer of the server. -/
theorem logins_isolated {disk : Bytes → Option Bytes} {events : List (Event O)}
    (run : Run step (fun _ _ => True) (World.init O disk) events w) (offline : w.connected = false)
    (address : serverOf server ≠ none) :
    (Isolated w (.opens server username password dbKey fresh) ↔
      step (World.init O w.disk) (.opens server username password dbKey fresh) = none ∨
        Untouched w.storage (fileOf O (w.disk (accountDbOf server username))
          (w.disk (sessionDbOf server username)))) ∧
    (Isolated w (.opens server username password dbKey fresh) → ∀ res,
      (exec step w [.opens server username password dbKey fresh, .loggedIn (some res)]).map
          (fun w => (w.storage, w.mtxclient)) =
        loginOf server username password dbKey fresh (w.disk (accountDbOf server username))
          (w.disk (sessionDbOf server username)) res) := by
  refine ⟨isolated_iff run offline address, fun isolated res => ?_⟩
  rw [isolated [.loggedIn (some res)]]
  exact login_init res

end Login

/-! ## Two users -/

section TwoUsers

def aliceIn : List (Event plain) :=
  logsIn (bytes "alice") ⟨alice, bytes "A1", bytes "secret"⟩

def bobOpens : Event plain := .opens (bytes "hs") (bytes "bob") (bytes "pw") (bytes "dbkey") (0 : Nat)

/-- Alice was refused. -/
def refused : World plain :=
  (exec step start [.opens (bytes "hs") (bytes "alice") (bytes "?") (bytes "dbkey") (0 : Nat),
    .loggedIn none, .closes]).get (by decide +kernel)

/-- Alice has been logged in. -/
def aliceOut : World plain := (exec step start (aliceIn ++ [.closes])).get (by decide +kernel)

/-- It applies to a login after one that was refused. -/
theorem logins_isolated_refused : Isolated refused bobOpens :=
  (logins_isolated (.of_exec (Option.some_get _).symm fun _ _ _ => trivial) (by decide +kernel)
    (by decide +kernel)).1.mpr (.inr (by
      rw [show fileOf plain _ _ = none by decide +kernel]
      rfl))

/-- Bob gets the device and the token of Alice. -/
theorem bob_is_alice : ¬ ∀ (events : List (Event plain)) (w : World plain)
    (server username password dbKey : Bytes) (fresh : Nat),
    exec step start events = some w → w.connected = false → serverOf server ≠ none →
      Isolated w (.opens server username password dbKey fresh) := by
  intro all
  have isolated := all _ aliceOut (bytes "hs") (bytes "bob") (bytes "pw") (bytes "dbkey") 0
    (Option.some_get _).symm (by decide +kernel) (by decide +kernel)
    [.loggedIn (some ⟨bob, bytes "B1", bytes "token"⟩)]
  have tokens := congrArg (Option.map fun w => w.mtxclient.map HttpClient.accessToken) isolated
  revert tokens
  decide +kernel

end TwoUsers

end Piac.Matrix
