/-
# Client.Steps — what one event does to the matrix client

One lemma for each kind of event, which says all that the results about runs need of
it. A login starts with a client that has sent nothing but the login (`opens_step`); a
message either goes out at once, in a room and with a session that the storage has, or
waits for a new room (`message_step`); the answer to that shares the key and sends it
(`created_step`). All other callbacks are quiet (`callback_step`).
-/
import Piac.Client.Requests

namespace Piac.Matrix

set_option autoImplicit false

open Piac.Theory.CppString Piac.Theory Piac.Theory.Transition

variable {O : Mtx} {w w' : World O}

/-- A step is a program that ends, or throws what the process survives. -/
theorem step_eq_some {e : Event O} : step w e = some w' ↔ ∃ p, program w e = some p ∧
    w' = left (p.run w) ∧ ∀ thrown t, p.run w = .error thrown t → Fatal e thrown = false := by
  unfold step
  rw [Option.bind_eq_some_iff]
  refine exists_congr fun p => and_congr_right fun _ => ?_
  cases p.run w with
  | ok a t =>
      refine ⟨fun same => ?_, fun same => same.1 ▸ rfl⟩
      cases same
      exact ⟨rfl, nofun⟩
  | error thrown t =>
      refine ⟨fun same => ?_, fun ⟨same, survives⟩ => ?_⟩
      · obtain ⟨survives, same⟩ := Option.ite_none_left_eq_some.mp same
        cases same
        refine ⟨rfl, fun _ _ same => ?_⟩
        cases same
        exact Bool.eq_false_iff.mpr survives
      · rw [same]
        exact if_neg (Bool.eq_false_iff.mp (survives thrown t rfl))

theorem step_does {L : Limits} {e : Event O} {p : Op O Unit} (is : program w e = some p)
    (moves : Moves (Does L) p) (stepped : step w e = some w') : Does L w w' := by
  obtain ⟨p', is', rfl, -⟩ := step_eq_some.mp stepped
  cases is.symm.trans is'
  exact moves w

/-! ## Callbacks -/

/-- The callbacks of login, key upload and sync. -/
def Event.Callback : Event O → Prop
  | .loggedIn _ | .keysUploaded .. | .initialSynced .. | .synced _ => True
  | _ => False

theorem callback_step {e : Event O} (callback : e.Callback) (stepped : step w e = some w') :
    w.connected = true ∧ Does quiet w w' := by
  obtain ⟨p, is, -⟩ := step_eq_some.mp stepped
  cases e with
  | loggedIn res =>
      obtain ⟨online, same⟩ := Option.ite_none_right_eq_some.mp is
      cases same
      exact ⟨online, step_does is (loggedIn_does res trivial) stepped⟩
  | keysUploaded login ok =>
      obtain ⟨online, same⟩ := Option.ite_none_right_eq_some.mp is
      cases same
      exact ⟨online, step_does is (keysUploaded_does fun _ _ => trivial) stepped⟩
  | initialSynced retry res =>
      obtain ⟨online, same⟩ := Option.ite_none_right_eq_some.mp is
      cases same
      exact ⟨online, step_does is (initialSynced_does retry res) stepped⟩
  | synced res =>
      obtain ⟨online, same⟩ := Option.ite_none_right_eq_some.mp is
      cases same
      exact ⟨online, step_does is (synced_does res) stepped⟩
  | _ => exact callback.elim

/-- The devices that an answer to a query lists. -/
def listsOf (res : Option QueryKeys) (user dev : Bytes) : Prop :=
  ∃ deviceKeys, res = some deviceKeys ∧ Lists deviceKeys.entries user dev

theorem queriedKeys_step {res : Option QueryKeys} (stepped : step w (.queriedKeys res) = some w') :
    w.connected = true ∧ Does (listing (listsOf res)) w w' := by
  obtain ⟨p, is, -⟩ := step_eq_some.mp stepped
  obtain ⟨online, same⟩ := Option.ite_none_right_eq_some.mp is
  cases same
  refine ⟨online, step_does is ?_ stepped⟩
  cases res with
  | none => exact .pure _
  | some deviceKeys =>
      exact queriedKeys_does deviceKeys fun _ _ lists => ⟨deviceKeys, rfl, lists⟩

theorem disconnect_step (stepped : step w .disconnect = some w') :
    w.connected = true ∧ w' = { w with shutdown := true } := by
  obtain ⟨p, is, rfl, -⟩ := step_eq_some.mp stepped
  obtain ⟨online, same⟩ := Option.ite_none_right_eq_some.mp is
  cases same
  exact ⟨online, rfl⟩

/-! ## Callbacks that have waited -/

/-- The callback with a number no longer waits. -/
def World.answer (w : World O) (i : Nat) : World O :=
  { w with mtxclient := w.mtxclient.map fun client =>
      { client with pending := client.pending.eraseIdx i } }

theorem World.sent_answer (i : Nat) : (w.answer i).sent = w.sent := by
  unfold World.answer World.sent
  cases w.mtxclient <;> rfl

theorem World.pending_answer (i : Nat) : (w.answer i).pending = w.pending.eraseIdx i := by
  unfold World.answer World.pending
  cases w.mtxclient <;> rfl

theorem client_of_pending {i : Nat} {c : Pending} (waits : w.pending[i]? = some c) :
    ∃ client, w.mtxclient = some client := by
  cases here : w.mtxclient with
  | none => simp [World.pending, here] at waits
  | some client => exact ⟨client, rfl⟩

theorem answered_run {i : Nat} {c : Pending} (waits : w.pending[i]? = some c) :
    (answered i).run w = .ok () (w.answer i) := by
  obtain ⟨client, here⟩ := client_of_pending waits
  unfold answered World.answer
  rw [changeClient_run _ here, here]
  rfl

theorem claimed_step {i : Nat} {res : Option ClaimKeys} (stepped : step w (.claimed i res) = some w') :
    ∃ member dev payload, w.connected = true ∧
      w.pending[i]? = some (.claimKeys member dev payload) ∧
      Does (asking (fun act => ∃ content, act = .toDevice false member dev payload content)
        fun _ => False) (w.answer i) w' := by
  obtain ⟨p, is, rfl, -⟩ := step_eq_some.mp stepped
  unfold program at is
  dsimp only at is
  split at is
  · rename_i member dev payload online waits
    cases is
    refine ⟨member, dev, payload, online, waits, ?_⟩
    rw [run_bind_ok (answered_run waits)]
    exact claimedKeys_does member dev payload res _
  · cases is

/-! ## A new room -/

/-- An answered invitation: the limits of its requests. -/
def inviting (w : World O) (usr roomId : Bytes) (fresh : O.Outbound) : Limits :=
  asking (fun act => act = .inviteUser roomId usr ∨ (∃ data, act = .roomMessage roomId data) ∨
      (sharingRoom w roomId (roomKeyFor O roomId fresh)).act act)
    (sharingRoom w roomId (roomKeyFor O roomId fresh)).callback

theorem createdRoom_does (usr msg roomId : Bytes) (fresh : O.Outbound) :
    MovesFrom (Does (inviting w usr roomId fresh)) w (createdRoom usr msg roomId fresh) := by
  refine Moves.from_bind (request_does (Or.inl rfl) w) fun _ t ran asked => ?_
  have storage : t.storage = w.storage := by
    cases ready : w.mtxclient with
    | none =>
        rw [request, changeClient, run_bind_error (mtxclient_error ready)] at ran
        cases ran
    | some client =>
        rw [request_run _ (by rw [ready]; rfl)] at ran
        cases ran
        rfl
  -- the members and the devices are those of the storage
  have limits : sharingRoom t roomId = sharingRoom w roomId := by
    unfold sharingRoom World.IsMember World.HasDevice
    rw [storage]
  refine createOutboundMegolmSession_does roomId msg fresh t ?_ ?_ fun data =>
    Or.inr (Or.inl ⟨data, rfl⟩)
  · rw [limits]
    exact fun act within => Or.inr (Or.inr within)
  · rw [limits]
    exact fun _ => id

theorem created_step {i : Nat} {roomId usr msg : Bytes} {fresh : O.Outbound}
    (stepped : step w (.created i roomId fresh usr msg) = some w') : ∃ usr' msg', w.connected = true ∧
      w.pending[i]? = some (.createRoom usr' msg') ∧
      Does (inviting (w.answer i) usr roomId fresh) (w.answer i) w' := by
  obtain ⟨p, is, rfl, -⟩ := step_eq_some.mp stepped
  unfold program at is
  dsimp only at is
  split at is
  · rename_i usr' msg' online waits
    cases is
    refine ⟨usr', msg', online, waits, ?_⟩
    rw [run_bind_ok (answered_run waits)]
    exact createdRoom_does usr msg roomId fresh
  · cases is

/-! ## A message -/

/-- The request for a room with the user. -/
def World.invitation (w : World O) (usr ad : Bytes) : Act :=
  .createRoom (roomName w.matrixUser usr) ad [usr]

/-- The texts that are dumped for a message: those of the request for a new room, or of the event
for one that is there. -/
def World.dumped (w : World O) (usr ad msg : Bytes) : List Bytes :=
  if w.storage.inRoom w.matrixUser usr = [] then [roomName w.matrixUser usr, ad, usr]
  else [w.storage.inRoom w.matrixUser usr, msg]

/-- The client after an invitation. -/
def World.invites (w : World O) (client : HttpClient) (usr ad msg : Bytes) : World O :=
  { w with mtxclient := some { client with
      sent := client.sent ++ [w.invitation usr ad]
      pending := client.pending ++ [.createRoom usr msg] } }

/-- The client after a message with a session that the storage had. -/
def World.messages (w : World O) (client : HttpClient) (olm : OlmClient O) (session : O.Outbound)
    (roomId msg : Bytes) : World O :=
  let s := w.storage.touchOutboundGroupSession roomId
  let data := (s.outboundGroupSessionData.get? roomId).getD ⟨[], [], 0⟩
  let event := encrypted client olm session data.sessionId roomId msg
  let session := (O.encryptGroupMessage session (O.document roomId msg)).2
  let sessions := s.outboundGroupSessions.set roomId (some session)
  { w.ask (.roomMessage roomId event) with storage := { s with outboundGroupSessions := sessions } }

section Sent

variable {client : HttpClient} (here : w.mtxclient = some client)
include here

theorem World.sent_invites (usr ad msg : Bytes) :
    (w.invites client usr ad msg).sent = w.sent ++ [w.invitation usr ad] := by
  rw [World.sent.eq_def w, here]
  rfl

theorem World.pending_invites (usr ad msg : Bytes) :
    (w.invites client usr ad msg).pending = w.pending ++ [.createRoom usr msg] := by
  rw [World.pending.eq_def w, here]
  rfl

theorem World.sent_messages (olm : OlmClient O) (session : O.Outbound) (roomId msg : Bytes) :
    ∃ sessionId, (w.messages client olm session roomId msg).sent =
      w.sent ++ [.roomMessage roomId (encrypted client olm session sessionId roomId msg)] := by
  refine ⟨_, World.sent_ask _ ?_⟩
  rw [here]
  rfl

end Sent

theorem World.pending_messages (client : HttpClient) (olm : OlmClient O) (session : O.Outbound)
    (roomId msg : Bytes) : (w.messages client olm session roomId msg).pending = w.pending :=
  World.pending_ask _

/-- Without a room there is a request for one, if its texts can be dumped. -/
theorem matrixMessage_new {client : HttpClient} {usr : Bytes} (ad msg : Bytes)
    (here : w.mtxclient = some client) (new : w.storage.inRoom w.matrixUser usr = []) :
    (matrixMessage usr ad msg).run w =
      if dumps [roomName w.matrixUser usr, ad, usr] = true then .ok () (w.invites client usr ad msg)
      else .error .json w := by
  unfold matrixMessage
  rw [run_get_bind]
  dsimp only
  rw [if_pos new, inviteRoom, run_get_bind]
  dsimp only
  rw [run_bind_ok (mtxclient_run here)]
  split
  · rw [requestWith, changeClient_run _ here]
    rfl
  · rfl

theorem matrixMessage_invites {client : HttpClient} {usr : Bytes} (ad msg : Bytes)
    (here : w.mtxclient = some client) (new : w.storage.inRoom w.matrixUser usr = [])
    (plain : dumps (w.dumped usr ad msg) = true) :
    (matrixMessage usr ad msg).run w = .ok () (w.invites client usr ad msg) := by
  rw [World.dumped, if_pos new] at plain
  rw [matrixMessage_new ad msg here new, if_pos plain]

/-- The session that `operator[]` finds. -/
theorem touch_session (s : Storage O) (roomId : Bytes) :
    ((s.touchOutboundGroupSession roomId).outboundGroupSessions.get? roomId).getD none =
      (s.outboundGroupSessions.get? roomId).getD none := by
  unfold Storage.touchOutboundGroupSession
  rw [OrdMap.get?_touch, if_pos rfl]
  rfl

/-- In a room that is there, what follows is up to the session. -/
theorem matrixMessage_old {usr : Bytes} (ad msg : Bytes)
    (old : w.storage.inRoom w.matrixUser usr ≠ []) :
    let roomId := w.storage.inRoom w.matrixUser usr
    let s := w.storage.touchOutboundGroupSession roomId
    (matrixMessage usr ad msg).run w = (do
      let session ← sendGroupMessage ((w.storage.outboundGroupSessions.get? roomId).getD none)
        ((s.outboundGroupSessionData.get? roomId).getD ⟨[], [], 0⟩).sessionId roomId msg
      changeStorage fun s =>
        { s with outboundGroupSessions := s.outboundGroupSessions.set roomId (some session) }
      : Op O Unit).run { w with storage := s } := by
  unfold matrixMessage
  dsimp only
  rw [run_get_bind, if_neg old, ← touch_session]
  rfl

theorem matrixMessage_sends {client : HttpClient} {olm : OlmClient O} {session : O.Outbound}
    {usr : Bytes} (ad msg : Bytes) (here : w.mtxclient = some client)
    (olmHere : w.olmclient = some olm) (old : w.storage.inRoom w.matrixUser usr ≠ [])
    (stored : w.storage.outboundGroupSessions.get? (w.storage.inRoom w.matrixUser usr) =
      some (some session)) (plain : dumps (w.dumped usr ad msg) = true) :
    (matrixMessage usr ad msg).run w =
      .ok () (w.messages client olm session (w.storage.inRoom w.matrixUser usr) msg) := by
  rw [World.dumped, if_neg old] at plain
  rw [matrixMessage_old ad msg old, stored]
  dsimp only [Option.getD_some]
  have sent := sendGroupMessage_run
    (w := { w with storage := w.storage.touchOutboundGroupSession (w.storage.inRoom w.matrixUser usr) })
    here olmHere session
  rw [run_bind_ok (sent _ plain)]
  rfl

/-- What a message does that the process survives: the pointers were not null, and what was dumped
was UTF-8. -/
theorem message_step {usr ad msg : Bytes} (stepped : step w (.message usr ad msg) = some w') :
    ∃ client, w.mtxclient = some client ∧ dumps (w.dumped usr ad msg) = true ∧
      (w.storage.inRoom w.matrixUser usr = [] ∧ w' = w.invites client usr ad msg ∨
        w.storage.inRoom w.matrixUser usr ≠ [] ∧ ∃ olm session, w.olmclient = some olm ∧
          w.storage.outboundGroupSessions.get? (w.storage.inRoom w.matrixUser usr) =
            some (some session) ∧
          w' = w.messages client olm session (w.storage.inRoom w.matrixUser usr) msg) := by
  obtain ⟨p, is, ended, survives⟩ := step_eq_some.mp stepped
  cases is
  have alive : ∀ thrown t, (matrixMessage usr ad msg).run w ≠ .error thrown t := by
    intro thrown t ran
    have := survives thrown t ran
    cases thrown <;> cases this
  by_cases new : w.storage.inRoom w.matrixUser usr = []
  · cases here : w.mtxclient with
    | none =>
        refine absurd ?_ (alive .nullMtxclient w)
        unfold matrixMessage
        rw [run_get_bind]
        dsimp only
        rw [if_pos new, inviteRoom, run_get_bind]
        exact run_bind_error (mtxclient_error here)
    | some client =>
        have ran := matrixMessage_new ad msg here new
        split at ran
        · rename_i plain
          rw [ran] at ended
          exact ⟨client, rfl, by rwa [World.dumped, if_pos new], .inl ⟨new, ended⟩⟩
        · exact absurd ran (alive _ _)
  · have old := matrixMessage_old ad msg new
    obtain ⟨session, ready, plain⟩ | ⟨thrown, ran⟩ := sendGroupMessage_cases
      { w with storage := w.storage.touchOutboundGroupSession (w.storage.inRoom w.matrixUser usr) }
      ((w.storage.outboundGroupSessions.get? (w.storage.inRoom w.matrixUser usr)).getD none)
      _ (w.storage.inRoom w.matrixUser usr) msg
    · obtain ⟨client, (here : w.mtxclient = some client)⟩ := Option.isSome_iff_exists.mp ready.1
      obtain ⟨olm, (olmHere : w.olmclient = some olm)⟩ := Option.isSome_iff_exists.mp ready.2
      obtain ⟨session, is⟩ := Option.isSome_iff_exists.mp session
      have stored : w.storage.outboundGroupSessions.get? (w.storage.inRoom w.matrixUser usr) =
          some (some session) := by
        cases found : w.storage.outboundGroupSessions.get? (w.storage.inRoom w.matrixUser usr) with
        | none =>
            rw [found] at is
            cases is
        | some stored =>
            rw [found] at is
            exact congrArg some is
      have dumped : dumps (w.dumped usr ad msg) = true := by rwa [World.dumped, if_neg new]
      rw [matrixMessage_sends ad msg here olmHere new stored dumped] at ended
      exact ⟨client, here, dumped, .inr ⟨new, olm, session, olmHere, stored, ended⟩⟩
    · exact absurd (old.trans (run_bind_error ran)) (alive thrown _)

/-! ## Start and end of a login -/

/-- The state in which a thread has asked for its login. -/
def World.opened (w : World O) (server username password dbKey host : Bytes) (port : Int)
    (account : O.Account) (storage : Storage O) : World O where
  storage := storage
  mtxclient := some { HttpClient.make host port with sent := [.login username password] }
  olmclient := some { account, userId := [], deviceId := [] }
  matrixUser := bytes "@" ++ username ++ bytes ":" ++ host
  accountDb := accountDbOf server username
  sessionDb := sessionDbOf server username
  storageKey := dbKey
  connected := true
  shutdown := w.shutdown
  disk := w.disk

/-- A thread that returns at once leaves everything as it is; another one starts with a client
that has asked for nothing but the login. -/
theorem step_opens (server username password dbKey : Bytes) (fresh : O.Account) :
    step w (.opens server username password dbKey fresh) =
      if w.connected then some w
      else match serverOf server with
      | none => some w
      | some (host, port) =>
          match loadFiles w.storage dbKey (w.disk (accountDbOf server username))
            (w.disk (sessionDbOf server username)) fresh with
          | .error _ => none
          | .ok (account, storage) =>
              some (w.opened server username password dbKey host port account storage) := by
  have ends {opened : Bool} {t : World O}
      (ran : (open_ server username password dbKey fresh).run w = .ok opened t) :
      step w (.opens server username password dbKey fresh) = some t := by
    have whole : (open_ server username password dbKey fresh >>= fun _ => pure ()).run w =
      .ok () t := run_bind_ok ran
    refine step_eq_some.mpr ⟨_, rfl, congrArg left whole.symm, fun thrown t' threw => ?_⟩
    cases whole.symm.trans threw
  -- whatever is thrown here, nothing above catches it
  have throws {thrown : Thrown} {t : World O}
      (ran : (open_ server username password dbKey fresh).run w = .error thrown t) :
      step w (.opens server username password dbKey fresh) = none := by
    refine Option.eq_none_iff_forall_not_mem.mpr fun t' stepped => ?_
    obtain ⟨_, is, -, survives⟩ := step_eq_some.mp stepped
    cases is
    have survived := survives thrown t (run_bind_error ran)
    cases thrown <;> cases survived
  unfold open_ at ends throws
  simp only [run_get_bind] at ends throws
  by_cases online : w.connected = true
  · rw [ends (by rw [if_pos online]; rfl), if_pos online]
  · rw [if_neg online]
    cases address : serverOf server with
    | none => exact ends (by rw [if_neg online, address]; rfl)
    | some at_ =>
        obtain ⟨host, port⟩ := at_
        cases files : loadFiles w.storage dbKey (w.disk (accountDbOf server username))
          (w.disk (sessionDbOf server username)) fresh with
        | error thrown => exact throws (by rw [if_neg online, address, files]; rfl)
        | ok loaded =>
            obtain ⟨account, storage⟩ := loaded
            exact ends (by rw [if_neg online, address, files]; rfl)

/-- A file is written. -/
def World.wrote (w : World O) (filename data : Bytes) : World O :=
  { w with disk := fun name => if name = filename then some data else w.disk name }

/-- The two files are written, or the thread throws. -/
theorem saveFiles_cases (w : World O) : (∃ thrown t, saveFiles.run w = .error thrown t) ∨
    ∃ obj olm, w.storage.save w.storageKey = .ok obj ∧ w.olmclient = some olm ∧
      saveFiles.run w = .ok () ((w.wrote w.sessionDb (O.dumpSession obj)).wrote w.accountDb
        (O.dumpAccount (O.saveAccount olm.account w.storageKey))) := by
  unfold saveFiles
  rw [run_get_bind]
  cases w.storage.save w.storageKey with
  | error thrown => exact .inl ⟨thrown, w, rfl⟩
  | ok obj =>
      have first : (writeFile w.sessionDb (O.dumpSession obj)).run w =
        .ok () (w.wrote w.sessionDb (O.dumpSession obj)) := rfl
      dsimp only
      rw [run_bind_ok first]
      cases olmHere : w.olmclient with
      | none =>
          have second : olmclient.run (w.wrote w.sessionDb (O.dumpSession obj)) =
            .error .nullOlmclient _ := olmclient_error olmHere
          exact .inl ⟨_, _, run_bind_error second⟩
      | some olm =>
          have second : olmclient.run (w.wrote w.sessionDb (O.dumpSession obj)) = .ok olm _ :=
            olmclient_run olmHere
          exact .inr ⟨obj, olm, rfl, rfl, run_bind_ok second⟩

/-- The end of a thread leaves the storage and the client, and writes the two files. -/
theorem closes_step (stepped : step w .closes = some w') : w.connected = true ∧ w.pending = [] ∧
    ∃ obj olm, w.storage.save w.storageKey = .ok obj ∧ w.olmclient = some olm ∧
      w' = (World.wrote { w with connected := false, shutdown := false } w.sessionDb
        (O.dumpSession obj)).wrote w.accountDb
          (O.dumpAccount (O.saveAccount olm.account w.storageKey)) := by
  obtain ⟨p, is, ended, survives⟩ := step_eq_some.mp stepped
  obtain ⟨⟨online, none_⟩, same⟩ := Option.ite_none_right_eq_some.mp is
  cases same
  refine ⟨online, none_, ?_⟩
  obtain ⟨thrown, t, ran⟩ | ⟨obj, olm, saved, olmHere, ran⟩ :=
    saveFiles_cases { w with connected := false, shutdown := false }
  · have := survives thrown t ran
    cases thrown <;> cases this
  · refine ⟨obj, olm, saved, olmHere, ended.trans ?_⟩
    exact congrArg left ran

end Piac.Matrix
