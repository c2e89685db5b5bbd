/-
# Client.Callbacks — what a callback does with an error

mtxclient calls the callback of a request with a response and an error object, which is
empty if the request has succeeded. `Callback.call` is each callback of the client with
both, as a program over the client and its log; what it does to the client is a program of
`Client.Matrix` or `Client.Session` (`Callback.effect`, `call_world`).

* `effect_failed`: with an error, a callback other than that of a new room leaves the
  client as it is, or asks for the same sync again;
* `failed_requests`: a callback is `Lawful`, with an error and without one, exactly if it is
  not that of a new room, which reads the error in any case and goes on.
-/
import Piac.Client.Parsing

namespace Piac.Matrix

set_option autoImplicit false

open Piac.Theory.CppString Piac.Theory

/-! ## Errors -/

/-- `mtx::http::ClientError`; `error` is that of `matrix_error`. -/
structure ClientError where
  statusCode : Int
  error : Bytes
  errorCode : Int
  parseError : Bytes
  deriving DecidableEq

/-- `mtx::http::RequestErr`. -/
abbrev RequestErr := Option ClientError

/-- The client, the lines of its log about the errors its callbacks are called with, and what goes
to `std::cerr`. -/
structure Logged (O : Mtx) where
  world : World O
  log : List Bytes
  cerr : List Bytes
  /-- How often an empty error object has been read. -/
  emptyReads : Nat

abbrev Handling (O : Mtx) := EStateM Thrown (Logged O)

variable {O : Mtx}

def merror (line : Bytes) : Handling O Unit := modify fun l => { l with log := l.log ++ [line] }

/-- The lines of `print_errors`. -/
def errorLines (err : ClientError) : List Bytes :=
  (if err.statusCode ≠ 0 then
    -- `static_cast< uint16_t >`
    [bytes "status code: " ++ intToString (err.statusCode % 2 ^ 16)] else []) ++
  (if err.error ≠ [] then [bytes "error msg: " ++ err.error] else []) ++
  (if err.errorCode ≠ 0 then [bytes "error code: " ++ intToString err.errorCode] else []) ++
  (if err.parseError ≠ [] then [bytes "parse error: " ++ err.parseError] else [])

/-- `print_errors`, which reads its argument without a look whether it is empty. -/
def printErrors : RequestErr → Handling O Unit
  | some err => modify fun l => { l with log := l.log ++ errorLines err }
  | none => modify fun l => { l with emptyReads := l.emptyReads + 1 }

/-- A program of the client, which has no error to log. Lines of its own, such as that no members
were found for a room, are not part of `log`. -/
def silently (p : Op O Unit) : Handling O Unit := fun l =>
  match p.run l.world with
  | .ok _ world => .ok () { l with world }
  | .error thrown world => .error thrown { l with world }

/-! ## Callbacks -/

/-- `if (err) { print_errors( err ); return; }` before the rest. -/
def unlessError (err : RequestErr) (rest : Op O Unit) : Handling O Unit :=
  match err with
  | some _ => printErrors err
  | none => silently rest

def keysUploadedCb (err : RequestErr) : Handling O Unit :=
  unlessError err (keysUploaded false true)

/-- The callback of the upload in `login_cb`. -/
def loginKeysUploadedCb (err : RequestErr) : Handling O Unit :=
  unlessError err (keysUploaded true true)

/-- That of `get_device_keys`. -/
def queriedKeysCb (res : QueryKeys) (err : RequestErr) : Handling O Unit :=
  unlessError err (queriedKeys (some res))

/-- That of `send_group_message`. -/
def sentMessageCb (err : RequestErr) : Handling O Unit := unlessError err (return)

def toDeviceCb (err : RequestErr) : Handling O Unit := unlessError err (return)

/-- That of a claim in `create_outbound_megolm_session`. -/
def claimedKeysCb (member dev : Bytes) (payload : RoomKey) (res : ClaimKeys) (err : RequestErr) :
    Handling O Unit :=
  unlessError err (claimedKeys member dev payload (some res))

/-- That of `create_room` in `invite_room`. -/
def createdRoomCb (usr msg roomId : Bytes) (fresh : O.Outbound) (err : RequestErr) :
    Handling O Unit := do
  printErrors err
  silently (createdRoom usr msg roomId fresh)

/-- That of `invite_user` in `invite_room`. -/
def invitedCb (_ : RequestErr) : Handling O Unit := return

/-- That of `join_room` in `parse_messages`. -/
def joinedRoomCb (roomId : Bytes) (err : RequestErr) : Handling O Unit :=
  match err with
  | some _ => do
      printErrors err
      merror (bytes "failed to join room " ++ roomId)
  | none => return

def loginCb (res : Login) (err : RequestErr) : Handling O Unit :=
  match err with
  | some e => do
      merror (bytes "login error")
      printErrors err
      if e.error ≠ [] then modify fun l => { l with cerr := l.cerr ++ [e.error] }
  | none => silently (loggedIn (some res))

def syncHandler (res : SyncResponse) (err : RequestErr) : Handling O Unit :=
  match err with
  | some _ => do
      merror (bytes "error during sync")
      printErrors err
      silently (synced none)
  | none => silently (synced (some res))

def initialSyncHandler (res : SyncResponse) (err : RequestErr) : Handling O Unit :=
  match err with
  | some e => do
      merror (bytes "error during initial sync")
      printErrors err
      if e.statusCode ≠ 200 then
        merror (bytes "retrying initial sync ...")
        silently (initialSynced true none)
  | none => silently (initialSynced false (some res))

variable (O) in
/-- A callback with what it holds on to and the response it is called with. -/
inductive Callback where
  | keysUploaded
  | loginKeysUploaded
  | queriedKeys (res : QueryKeys)
  | sentMessage
  | toDevice
  | claimedKeys (member dev : Bytes) (payload : RoomKey) (res : ClaimKeys)
  | createdRoom (usr msg roomId : Bytes) (fresh : O.Outbound)
  | invited
  | joinedRoom (roomId : Bytes)
  | loggedIn (res : Login)
  | initialSynced (res : SyncResponse)
  | synced (res : SyncResponse)

namespace Callback

def call (err : RequestErr) : Callback O → Handling O Unit
  | keysUploaded => keysUploadedCb err
  | loginKeysUploaded => loginKeysUploadedCb err
  | queriedKeys res => queriedKeysCb res err
  | sentMessage => sentMessageCb err
  | toDevice => toDeviceCb err
  | claimedKeys member dev payload res => claimedKeysCb member dev payload res err
  | createdRoom usr msg roomId fresh => createdRoomCb usr msg roomId fresh err
  | invited => invitedCb err
  | joinedRoom roomId => joinedRoomCb roomId err
  | loggedIn res => loginCb res err
  | initialSynced res => initialSyncHandler res err
  | synced res => syncHandler res err

/-- The response, if there is no error. -/
def answerOf {α : Type} (err : RequestErr) (res : α) : Option α :=
  if err.isSome then none else some res

/-- An error after which the initial sync is tried again. -/
def retried (err : RequestErr) : Bool := err.any fun e => e.statusCode ≠ 200

/-- What a callback does to the client. -/
def effect (err : RequestErr) : Callback O → Op O Unit
  | keysUploaded => Matrix.keysUploaded false err.isNone
  | loginKeysUploaded => Matrix.keysUploaded true err.isNone
  | queriedKeys res => Matrix.queriedKeys (answerOf err res)
  | claimedKeys member dev payload res => Matrix.claimedKeys member dev payload (answerOf err res)
  | createdRoom usr msg roomId fresh => Matrix.createdRoom usr msg roomId fresh
  | loggedIn res => Matrix.loggedIn (answerOf err res)
  | initialSynced res => Matrix.initialSynced (retried err) (answerOf err res)
  | synced res => Matrix.synced (answerOf err res)
  | sentMessage | toDevice | invited | joinedRoom _ => return

/-- The callback of a new room. -/
def OfNewRoom : Callback O → Prop
  | createdRoom .. => True
  | _ => False

/-- The requests that are the failed one again: an initial sync has been asked for from the
start, and any other one from the token that the client has. -/
def Retries (w : World O) (act : Act) : Callback O → Prop
  | initialSynced _ => act = .sync []
  | synced _ => ∃ client, w.mtxclient = some client ∧ act = .sync client.nextBatch
  | _ => False

/-- A failed request has no effect, and the error of one that succeeds is not read. -/
structure Lawful (c : Callback O) (err : RequestErr) (l : Logged O) : Prop where
  storage : err.isSome = true → (left ((c.call err).run l)).world.storage = l.world.storage
  sent : err.isSome = true → ∃ acts,
    (left ((c.call err).run l)).world.sent = l.world.sent ++ acts ∧
      ∀ act ∈ acts, c.Retries l.world act
  emptyReads : err = none → (left ((c.call err).run l)).emptyReads = l.emptyReads

end Callback

/-! ## Effects -/

/-- A program that writes to the log at most. -/
def OnlyLogs (p : Handling O Unit) : Prop :=
  ∀ l, ∃ l', p.run l = .ok () l' ∧ l'.world = l.world ∧ l'.emptyReads = l.emptyReads

/-- What the program does to the client, besides its log. -/
def Performs (p : Handling O Unit) (e : Op O Unit) : Prop :=
  ∀ l, (left (p.run l)).world = left (e.run l.world) ∧
    (left (p.run l)).emptyReads = l.emptyReads

theorem onlyLogs_merror (line : Bytes) : OnlyLogs (merror line : Handling O Unit) :=
  fun _ => ⟨_, rfl, rfl, rfl⟩

theorem onlyLogs_printErrors (e : ClientError) : OnlyLogs (printErrors (some e) : Handling O Unit) :=
  fun _ => ⟨_, rfl, rfl, rfl⟩

theorem left_silently (p : Op O Unit) (l : Logged O) :
    left ((silently p).run l) = { l with world := left (p.run l.world) } := by
  show left (silently p l) = _
  unfold silently
  cases p.run l.world <;> rfl

theorem performs_silently (p : Op O Unit) : Performs (silently p) p := by
  intro l
  rw [left_silently]
  exact ⟨rfl, rfl⟩

theorem OnlyLogs.performs {p : Handling O Unit} (logs : OnlyLogs p) : Performs p (return) := by
  intro l
  obtain ⟨l', ran, world, reads⟩ := logs l
  rw [ran]
  exact ⟨world, reads⟩

theorem OnlyLogs.bind {p q : Handling O Unit} (logs : OnlyLogs p) (rest : OnlyLogs q) :
    OnlyLogs (p >>= fun _ => q) := by
  intro l
  obtain ⟨l', ran, world, reads⟩ := logs l
  rw [run_bind_ok ran, ← world, ← reads]
  exact rest l'

theorem OnlyLogs.performs_bind {p q : Handling O Unit} {e : Op O Unit} (logs : OnlyLogs p)
    (rest : Performs q e) : Performs (p >>= fun _ => q) e := by
  intro l
  obtain ⟨l', ran, world, reads⟩ := logs l
  rw [run_bind_ok ran, ← world, ← reads]
  exact rest l'

theorem failed_loginCb (res : Login) (e : ClientError) :
    OnlyLogs (loginCb res (some e) : Handling O Unit) := by
  refine (onlyLogs_merror _).bind ((onlyLogs_printErrors e).bind ?_)
  by_cases told : e.error ≠ []
  · rw [if_pos told]
    exact fun _ => ⟨_, rfl, rfl, rfl⟩
  · rw [if_neg told]
    exact fun _ => ⟨_, rfl, rfl, rfl⟩

theorem failed_initialSyncHandler (res : SyncResponse) (e : ClientError) :
    Performs (initialSyncHandler res (some e) : Handling O Unit)
      ((Callback.initialSynced res).effect (some e)) := by
  refine (onlyLogs_merror _).performs_bind ((onlyLogs_printErrors e).performs_bind ?_)
  by_cases again : e.statusCode ≠ 200
  · have retried_ : Callback.retried (some e) = true := decide_eq_true again
    rw [if_pos again, Callback.effect, retried_]
    exact (onlyLogs_merror _).performs_bind (performs_silently _)
  · have done : Callback.retried (some e) = false := decide_eq_false again
    rw [if_neg again, Callback.effect, done]
    exact fun _ => ⟨rfl, rfl⟩

/-- **A callback does its effect**, and reads no empty error, unless it is that of a new
room. -/
theorem call_performs (err : RequestErr) {c : Callback O} (known : ¬ c.OfNewRoom) :
    Performs (c.call err) (c.effect err) := by
  cases err with
  | none =>
      cases c with
      | createdRoom usr msg roomId fresh => exact absurd trivial known
      | invited => exact fun _ => ⟨rfl, rfl⟩
      | joinedRoom roomId => exact fun _ => ⟨rfl, rfl⟩
      | sentMessage => exact performs_silently (return)
      | toDevice => exact performs_silently (return)
      | _ => exact performs_silently _
  | some e =>
      cases c with
      | createdRoom usr msg roomId fresh => exact absurd trivial known
      | invited => exact fun _ => ⟨rfl, rfl⟩
      | joinedRoom roomId =>
          exact ((onlyLogs_printErrors e).bind (onlyLogs_merror _)).performs
      | loggedIn res => exact (failed_loginCb res e).performs
      | initialSynced res => exact failed_initialSyncHandler res e
      | synced res =>
          exact (onlyLogs_merror _).performs_bind
            ((onlyLogs_printErrors e).performs_bind (performs_silently _))
      | _ => exact (onlyLogs_printErrors e).performs

/-- That of a new room counts an empty error that it reads. -/
theorem createdRoomCb_run (usr msg roomId : Bytes) (fresh : O.Outbound) (err : RequestErr)
    (l : Logged O) :
    (left ((createdRoomCb usr msg roomId fresh err).run l)).world =
        left ((createdRoom usr msg roomId fresh).run l.world) ∧
      (left ((createdRoomCb usr msg roomId fresh err).run l)).emptyReads =
        l.emptyReads + if err.isSome then 0 else 1 := by
  unfold createdRoomCb
  cases err with
  | some e =>
      exact (onlyLogs_printErrors e).performs_bind (performs_silently _) l
  | none =>
      have ran : (printErrors none : Handling O Unit).run l =
        .ok () { l with emptyReads := l.emptyReads + 1 } := rfl
      rw [run_bind_ok ran, left_silently]
      exact ⟨rfl, rfl⟩

theorem call_world (c : Callback O) (err : RequestErr) (l : Logged O) :
    (left ((c.call err).run l)).world = left ((c.effect err).run l.world) := by
  by_cases known : c.OfNewRoom
  · cases c with
    | createdRoom usr msg roomId fresh => exact (createdRoomCb_run usr msg roomId fresh err l).1
    | _ => exact known.elim
  · exact (call_performs err known l).1

/-! ## Failed requests -/

theorem left_request (act : Act) (w : World O) : left ((request act).run w) = w.ask act := by
  cases here : w.mtxclient with
  | some client => rw [request_run act (by rw [here]; rfl), left]
  | none =>
      rw [request, changeClient, run_bind_error (mtxclient_error here)]
      cases w
      cases here
      rfl

/-- **With an error** a callback leaves the client, or asks for the same again. -/
theorem effect_failed (e : ClientError) {c : Callback O} (known : ¬ c.OfNewRoom) (w : World O) :
    left ((c.effect (some e)).run w) = w ∨
      ∃ act, c.Retries w act ∧ left ((c.effect (some e)).run w) = w.ask act := by
  cases c with
  | createdRoom usr msg roomId fresh => exact absurd trivial known
  | initialSynced res =>
      show left ((Matrix.initialSynced (Callback.retried (some e)) none).run w) = w ∨ _
      cases again : Callback.retried (some e) with
      | false => exact .inl rfl
      | true => exact .inr ⟨.sync [], rfl, by rw [Callback.effect, again]; exact left_request _ w⟩
  | synced res =>
      show left ((mtxclient >>= fun client => request (.sync client.nextBatch)).run w) = w ∨ _
      cases here : w.mtxclient with
      | none =>
          rw [run_bind_error (mtxclient_error here)]
          exact .inl rfl
      | some client =>
          refine .inr ⟨.sync client.nextBatch, ⟨client, here, rfl⟩, ?_⟩
          show left ((mtxclient >>= fun client => request (.sync client.nextBatch)).run w) = _
          rw [run_bind_ok (mtxclient_run here), left_request]
  | _ => exact .inl rfl

theorem World.sent_ask_of {w : World O} (act : Act) :
    ∃ acts, (w.ask act).sent = w.sent ++ acts ∧ ∀ a ∈ acts, a = act := by
  cases ready : w.mtxclient with
  | none =>
      refine ⟨[], ?_, nofun⟩
      rw [World.sent, World.sent, World.ask, ready]
      rfl
  | some client =>
      exact ⟨[act], World.sent_ask act (by rw [ready]; rfl), fun _ => List.mem_singleton.mp⟩

theorem lawful_of_known (err : RequestErr) (l : Logged O) {c : Callback O}
    (known : ¬ c.OfNewRoom) : c.Lawful err l := by
  obtain ⟨world, reads⟩ := call_performs err known l
  cases err with
  | none => exact ⟨nofun, nofun, fun _ => reads⟩
  | some e =>
      rcases effect_failed e known l.world with same | ⟨act, again, asked⟩
      · rw [same] at world
        exact ⟨fun _ => congrArg World.storage world,
          fun _ => ⟨[], by rw [world, List.append_nil], nofun⟩, nofun⟩
      · rw [asked] at world
        refine ⟨fun _ => world ▸ rfl, fun _ => ?_, nofun⟩
        obtain ⟨acts, sent, within⟩ := World.sent_ask_of (w := l.world) act
        exact ⟨acts, by rw [world, sent], fun a among => within a among ▸ again⟩

/-- The callback of a new room invites the user, whatever it is called with. -/
theorem createdRoom_invites (usr msg roomId : Bytes) (fresh : O.Outbound) {w : World O}
    (here : w.mtxclient.isSome = true) : ∃ acts,
      (left ((createdRoom usr msg roomId fresh).run w)).sent =
        w.sent ++ .inviteUser roomId usr :: acts := by
  have does : Does ⟨fun _ => True, fun _ => True, fun _ _ => False, fun _ _ => False⟩
      (w.ask (.inviteUser roomId usr)) (left ((createdRoom usr msg roomId fresh).run w)) := by
    unfold createdRoom
    rw [run_bind_ok (request_run _ here)]
    exact createOutboundMegolmSession_does roomId msg fresh _ (fun _ _ => trivial)
      (fun _ _ => trivial) fun _ => trivial
  obtain ⟨acts, sent, -⟩ := does.sent
  refine ⟨acts, ?_⟩
  rw [sent, World.sent_ask _ here, List.append_assoc]
  rfl

theorem not_lawful {usr msg roomId : Bytes} {fresh : O.Outbound} (err : RequestErr) (l : Logged O)
    (here : l.world.mtxclient.isSome = true) :
    ¬ (Callback.createdRoom usr msg roomId fresh).Lawful err l := by
  intro lawful
  obtain ⟨world, reads⟩ := createdRoomCb_run usr msg roomId fresh err l
  cases err with
  | none => exact absurd (reads.symm.trans (lawful.emptyReads rfl)) (Nat.succ_ne_self _)
  | some e =>
      obtain ⟨acts, sent, within⟩ := lawful.sent rfl
      obtain ⟨acts', invites⟩ := createdRoom_invites usr msg roomId fresh here
      have again : l.world.sent ++ acts = l.world.sent ++ .inviteUser roomId usr :: acts' := by
        rw [← invites, ← world]
        exact sent.symm
      rw [List.append_cancel_left again] at within
      exact within _ List.mem_cons_self

/-- **Failed requests have no effect exactly if** the callback is not that of a new room: with
an error it leaves the storage and asks for nothing but the same again, and without one it
does not read the empty error. -/
theorem failed_requests (l : Logged O) (here : l.world.mtxclient.isSome = true) (c : Callback O)
    (err : RequestErr) : c.Lawful err l ↔ ¬ c.OfNewRoom := by
  constructor
  · intro lawful ofNewRoom
    cases c with
    | createdRoom usr msg roomId fresh => exact not_lawful err l here lawful
    | _ => exact ofNewRoom
  · exact lawful_of_known err l

/-! ## A limit is exceeded -/

/-- The log of a process that is logged in. -/
def logged (O : Mtx) (account : O.Account) : Logged O := ⟨online O account, [], [], 0⟩

/-- What a server answers that wants no more rooms. -/
def limitExceeded : ClientError := ⟨429, bytes "Too Many Requests", 0, []⟩

theorem failed_requests_sync : (Callback.synced ⟨[], [], [], [], bytes "s1"⟩).Lawful
    (some limitExceeded) (logged plain (1 : Nat)) :=
  (failed_requests (logged plain (1 : Nat)) rfl (.synced ⟨[], [], [], [], bytes "s1"⟩)
    (some limitExceeded)).mpr id

/-- The room could not be made, and the user is invited to it; it could be made, and the empty
error is read. -/
theorem room_goes_on :
    (left (((Callback.createdRoom (bytes "@bob:hs") (bytes "hi") [] (0 : Nat)).call
      (some limitExceeded)).run (logged plain (1 : Nat)))).world.sent =
        [.inviteUser [] (bytes "@bob:hs")] ∧
    (left (((Callback.createdRoom (bytes "@bob:hs") (bytes "hi") (bytes "!room") (0 : Nat)).call
      none).run (logged plain (1 : Nat)))).emptyReads = 1 ∧
    ¬ ∀ (c : Callback plain) (err : RequestErr) (l : Logged plain),
      l.world.mtxclient.isSome = true → c.Lawful err l := by
  refine ⟨by decide +kernel, by decide +kernel, fun all => ?_⟩
  have reads := (all (.createdRoom (bytes "@bob:hs") (bytes "hi") (bytes "!room") (0 : Nat)) none
    (logged plain (1 : Nat)) rfl).emptyReads rfl
  revert reads
  decide +kernel

end Piac.Matrix
