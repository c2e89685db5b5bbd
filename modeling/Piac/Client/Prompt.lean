/-
# Client.Prompt — every line at the prompt

`main` takes one line after the other. Each line is a program over its variables and the
globals of the matrix client (`perform`): a command compares the line by hand, looks at
the wallet through `theWallet`, which is null until there is one, or calls the matrix
client. A line that leaves `main` by an exception, or by a null pointer, ends the process
(`Crash`). Between the lines the matrix threads go on: those that were started log in, and
the callbacks of `Client.Session` come. What is printed is left out.

* `line_update`: a line does to the variables what it does in `Client.Cli`;
* `Guarded`: the lines that do not crash, by the state before;
* `line_crashes_iff`: a line crashes exactly if it is not guarded;
* `prompt_safe`: a run meets no crash exactly if all of its lines are guarded;
* `prompt_crashes`: five lines that crash, four of them in a new process.
-/
import Piac.Client.Cli
import Piac.Client.Steps

namespace Piac

set_option autoImplicit false

open Piac.Theory.CppString Piac.Theory Piac.Theory.Transition

/-! ## Commands -/

inductive Command where
  | balance
  | db
  | quit
  | help
  | keys
  | msg
  | matrix
  | monerod
  | new
  | peers
  | server
  | sleep
  | user
  | version
  | unknown
  deriving DecidableEq

/-- The branches of the loop, in its order. -/
def Command.read (buf : Bytes) : Command :=
  if buf = bytes "balance" then .balance
  else if (bytes "db").isPrefixOf buf then .db
  else if buf = bytes "exit" ∨ buf = bytes "quit" ∨ (bytes "q").isPrefixOf buf then .quit
  else if buf = bytes "help" then .help
  else if buf = bytes "keys" then .keys
  else if (bytes "msg").isPrefixOf buf then .msg
  else if (bytes "matrix").isPrefixOf buf then .matrix
  else if (bytes "monerod").isPrefixOf buf then .monerod
  else if buf = bytes "new" then .new
  else if buf = bytes "peers" then .peers
  else if (bytes "server").isPrefixOf buf then .server
  else if (bytes "sleep").isPrefixOf buf then .sleep
  else if (bytes "user").isPrefixOf buf then .user
  else if buf = bytes "version" then .version
  else .unknown

/-- The branch as `Client.Cli` has it. -/
def Command.toCli : Command → CliCommand
  | .db => .db
  | .quit => .quit
  | .new | .user => .wallet
  | .peers => .peers
  | .server => .server
  | _ => .other

/-! ## The state -/

/-- `monero_wallet_full`. -/
structure Wallet where
  address : Bytes
  spendKey : Bytes
  deriving DecidableEq

/-- What ends the process in a line. -/
inductive Crash where
  /-- `g_wallet->` without a wallet. -/
  | nullWallet
  | zmq (e : ZmqException)
  /-- `create_wallet` has thrown. -/
  | monero
  | matrix (thrown : Matrix.Thrown)
  deriving DecidableEq

/-- The three pointers and the exceptions; a room without a session is not among them. -/
def Crash.Counts (crash : Crash) : Prop := crash ≠ .matrix .nullSession

/-- `matrix_thread` with its arguments, before it takes its first step. -/
structure Login where
  server : Bytes
  username : Bytes
  password : Bytes
  dbKey : Bytes
  deriving DecidableEq

inductive PromptPhase where
  | prompt
  /-- In the loop of joins of a `matrix disconnect`. -/
  | joining
  | ended
  | crashed (crash : Crash)
  deriving DecidableEq

structure Prompt (O : Matrix.Mtx) where
  piacHost : Bytes
  monerodHost : Bytes
  rpcServerPublicKey : Bytes
  rpcClientKeys : Keypair
  wallet : Option Wallet
  world : Matrix.World O
  starting : List Login
  phase : PromptPhase

/-- A line, the wallet that `new` makes, and the polls of a call to the daemon. -/
structure TypedLine where
  buf : Bytes
  fresh : Wallet
  results : List Poll

namespace Prompt

variable {O : Matrix.Mtx}

/-- The loop at its start. -/
def init (rpcServerPublicKey : Bytes) (rpcClientKeys : Keypair) (disk : Bytes → Option Bytes) :
    Prompt O :=
  { piacHost := bytes "localhost:55090", monerodHost := bytes "localhost:38089",
    rpcServerPublicKey, rpcClientKeys, wallet := none, world := .init O disk, starting := [],
    phase := .prompt }

/-- The variables that calls of the daemon depend on. -/
def cli (p : Prompt O) : Cli :=
  ⟨p.piacHost, p.rpcServerPublicKey, p.rpcClientKeys, p.wallet.map Wallet.address⟩

abbrev Op (O : Matrix.Mtx) := EStateM Crash (Prompt O)

/-- `g_wallet->`. -/
def theWallet : Op O Wallet := do
  match (← get).wallet with
  | some wallet => return wallet
  | none => throw .nullWallet

/-- `show_wallet_balance`, `show_wallet_keys` and `show_user` ask for a wallet first. -/
def showWallet : Op O Unit := do
  if (← get).wallet.isSome then
    let _ ← theWallet
    return

/-! ## Calls of the daemon -/

section Calls

variable (X : Platform) (Z : Curve)

/-- `pirate_send` with the variables of the loop. -/
def call (cmd : Bytes) (results : List Poll) : Op O Unit := do
  let p ← get
  match (pirateSend Z cmd p.piacHost p.rpcServerPublicKey p.rpcClientKeys results).run [] with
  | .ok _ _ => return
  | .error e _ => throw (.zmq e)

/-- `send_cmd`. -/
def sendCmd (cmd : Bytes) (results : List Poll) : Op O Unit := do
  let cmd := trim cmd
  if bytes "db" <:+: cmd ∧ (bytes "add" <:+: cmd ∨ bytes "rm" <:+: cmd) then
    if (← get).wallet.isSome then
      let wallet ← theWallet
      call Z (cmd ++ bytes " AUTH:" ++ X.sha256 wallet.address) results
  else call Z cmd results

end Calls

/-! ## Lines -/

section Lines

-- `create_wallet` with a mnemonic and the host of monerod; `none` if it throws
variable (restore : Bytes → Bytes → Option Wallet)

/-- A `user` line: `switch_user` needs 25 words. -/
def userLine (buf : Bytes) : Op O Unit := do
  let mnemonic := buf.drop 5
  if mnemonic = [] then showWallet
  else if wordcount mnemonic ≠ 25 then return
  else
    match restore mnemonic (← get).monerodHost with
    | none => throw .monero
    | some wallet => modify fun p => { p with wallet := some wallet }

/-- A `monerod` line. -/
def monerodLine (buf : Bytes) : Op O Unit :=
  match tokenize buf with
  | [] | [_] => return
  | _ :: host :: _ => modify fun p =>
      { p with monerodHost := if host = bytes "\"\"" then [] else host }

/-- A `server` line. -/
def serverLine (buf : Bytes) : Op O Unit :=
  modify fun p =>
    let c := p.cli.server buf
    { p with piacHost := c.piacHost, rpcServerPublicKey := c.rpcServerPublicKey }

/-- A `msg` line; without a wallet there is only a warning. -/
def msgLine (buf : Bytes) : Op O Unit :=
  match tokenize buf with
  | [_, otherUser, msg] => do
      let p ← get
      match (Matrix.matrixMessage otherUser (bytes "ad") msg).run p.world with
      | .ok _ world => set { p with world }
      | .error thrown world => do
          set { p with world }
          throw (.matrix thrown)
  | _ => return

/-- A `matrix` line; without a wallet there is only a warning. -/
def matrixLine (buf : Bytes) : Op O Unit :=
  match tokenize buf with
  | [_, host] => do
      if host = bytes "disconnect" ∧ (← get).world.connected then
        modify fun p => { p with world := { p.world with shutdown := true }, phase := .joining }
  | [_, server, username, password] => do
      let wallet ← theWallet
      modify fun p =>
        { p with starting := p.starting ++ [⟨server, username, password, wallet.spendKey⟩] }
  | _ => return

variable (X : Platform) (Z : Curve)

/-- The body of the loop. -/
def perform (input : TypedLine) : Op O Unit :=
  match Command.read input.buf with
  | .balance | .keys => showWallet
  | .db => sendCmd X Z input.buf input.results
  | .peers => sendCmd X Z (bytes "peers") input.results
  | .quit => modify fun p => { p with phase := .ended }
  | .msg => msgLine input.buf
  | .matrix => matrixLine input.buf
  | .monerod => monerodLine input.buf
  | .new => modify fun p => { p with wallet := some input.fresh }
  | .server => serverLine input.buf
  | .user => userLine restore input.buf
  | .help | .sleep | .version | .unknown => return

end Lines

/-! ## Runs -/

variable (O) in
inductive Label where
  | line (input : TypedLine)
  /-- No line any more. -/
  | eof
  /-- A matrix thread begins. -/
  | starts (i : Nat) (fresh : O.Account)
  /-- A callback, or the end of a matrix thread. -/
  | thread (e : Matrix.Event O)
  /-- The threads have been joined. -/
  | returns

/-- The events that no line stands for. -/
def OfThread : Matrix.Event O → Bool
  | .opens .. | .message .. | .disconnect => false
  | _ => true

/-- The threads go on until the process ends. -/
def goesOn (p : Prompt O) : Bool := p.phase = .prompt ∨ p.phase = .joining

variable (X : Platform) (Z : Curve) (restore : Bytes → Bytes → Option Wallet)

/-- A line, until the prompt is back or the process has ended. -/
def enter (p : Prompt O) (input : TypedLine) : Prompt O :=
  match (perform restore X Z input).run p with
  | .ok _ p' => p'
  | .error crash p' => { p' with phase := .crashed crash }

def step (p : Prompt O) : Label O → Option (Prompt O)
  | .line input => if p.phase = .prompt then some (p.enter X Z restore input) else none
  | .eof => if p.phase = .prompt then some { p with phase := .ended } else none
  | .starts i fresh =>
      if p.goesOn then p.starting[i]?.bind fun l =>
        (Matrix.step p.world (.opens l.server l.username l.password l.dbKey fresh)).map fun world =>
          { p with world, starting := p.starting.eraseIdx i }
      else none
  | .thread e =>
      if p.goesOn ∧ OfThread e then
        (Matrix.step p.world e).map fun world => { p with world }
      else none
  | .returns =>
      if p.phase = .joining ∧ p.world.connected = false ∧ p.starting = [] then
        some { p with phase := .prompt }
      else none

/-- A message needs a client that has been made, and UTF-8 in what is dumped for it. -/
def Sendable (w : Matrix.World O) : List Bytes → Prop
  | [_, otherUser, msg] =>
      w.mtxclient.isSome = true ∧ Matrix.dumps (w.dumped otherUser (bytes "ad") msg) = true
  | _ => True

instance (w : Matrix.World O) (tokens : List Bytes) : Decidable (Sendable w tokens) := by
  unfold Sendable
  split <;> infer_instance

/-- A line that sends to the daemon needs an endpoint, a login a wallet, and 25 words must be a
mnemonic. -/
def Guarded (p : Prompt O) : Label O → Prop
  | .line input =>
      match Command.read input.buf with
      | .db => authored X p.cli.wallet input.buf ≠ none → Z.connects p.piacHost = true
      | .peers => Z.connects p.piacHost = true
      | .msg => Sendable p.world (tokenize input.buf)
      | .matrix => (tokenize input.buf).length = 4 → p.wallet.isSome = true
      | .user => wordcount (input.buf.drop 5) = 25 →
          restore (input.buf.drop 5) p.monerodHost ≠ none
      | _ => True
  | _ => True

variable {X Z restore} {p p' : Prompt O}

/-! ## What a line does -/

theorem theWallet_run {wallet : Wallet} (here : p.wallet = some wallet) :
    theWallet.run p = .ok wallet p := by
  unfold theWallet
  rw [run_get_bind, here]
  rfl

theorem theWallet_error (missing : p.wallet = none) : theWallet.run p = .error .nullWallet p := by
  unfold theWallet
  rw [run_get_bind, missing]
  rfl

theorem showWallet_run (p : Prompt O) : showWallet.run p = .ok () p := by
  unfold showWallet
  rw [run_get_bind]
  cases here : p.wallet with
  | none => rfl
  | some wallet => exact run_bind_ok (theWallet_run here)

/-- A call returns exactly if its host is an endpoint: all its sockets are for the same host. -/
theorem pirateSend_returns {cmd host rpcServerPublicKey : Bytes} {clientKeys : Keypair}
    (results : List Poll) (sent : Sent) :
    if Z.connects host = true then
      ∃ done after, (pirateSend Z cmd host rpcServerPublicKey clientKeys results).run sent =
        .ok done after
    else (pirateSend Z cmd host rpcServerPublicKey clientKeys results).run sent =
      .error .endpoint sent := by
  have made := @daemonSocket_eq Z host rpcServerPublicKey clientKeys
  have first := @sendFresh_run Z cmd host rpcServerPublicKey clientKeys
  split
  · rename_i connects
    rw [if_pos connects] at made
    have fresh : Ends (fun _ => True) (sendFresh Z cmd host rpcServerPublicKey clientKeys) := by
      intro before _
      rw [first before, made]
      exact ⟨_, _, rfl⟩
    have loop : ∀ pirate, Ends (fun _ => True)
        (pirateLoop Z cmd host rpcServerPublicKey clientKeys pirate results) := by
      induction results with
      | nil => exact fun pirate => .pure pirate
      | cons result results ih =>
          intro pirate
          unfold pirateLoop
          split
          · exact .pure pirate
          · dsimp only
            split
            · exact .bind fresh (fun _ _ => trivial) fun _ => ih _
            · exact ih _
    exact Ends.bind fresh (fun _ _ => trivial) (fun _ => loop _) sent trivial
  · rename_i connects
    rw [if_neg connects] at made
    have failed := first sent
    rw [made] at failed
    exact run_bind_error failed

theorem call_run (cmd : Bytes) (results : List Poll) (p : Prompt O) :
    (call Z cmd results).run p =
      if Z.connects p.piacHost = true then .ok () p else .error (.zmq .endpoint) p := by
  have returns := @pirateSend_returns Z cmd p.piacHost p.rpcServerPublicKey p.rpcClientKeys
    results []
  unfold call
  rw [run_get_bind]
  split at returns
  · rename_i connects
    obtain ⟨done, after, ran⟩ := returns
    rw [ran, if_pos connects]
    rfl
  · rename_i connects
    rw [returns, if_neg connects]
    rfl

/-- What is sent is what `Cli.session` sends. -/
theorem sendCmd_run (cmd : Bytes) (results : List Poll) (p : Prompt O) :
    (sendCmd X Z cmd results).run p =
      if authored X p.cli.wallet cmd ≠ none ∧ Z.connects p.piacHost = false then
        .error (.zmq .endpoint) p
      else .ok () p := by
  unfold sendCmd authored
  dsimp only
  by_cases signs : bytes "db" <:+: trim cmd ∧ (bytes "add" <:+: trim cmd ∨ bytes "rm" <:+: trim cmd)
  · rw [if_pos signs, if_pos signs, run_get_bind]
    cases here : p.wallet with
    | none => simp [cli, here]
    | some wallet =>
        show (theWallet >>= fun wallet => _).run p = _
        rw [run_bind_ok (theWallet_run here), call_run]
        cases connects : Z.connects p.piacHost <;> simp [cli, here]
  · rw [if_neg signs, if_neg signs, call_run]
    cases connects : Z.connects p.piacHost <;> simp

/-- Both clients of the matrix thread are made in one go. -/
def Made (w : Matrix.World O) : Prop := w.olmclient.isSome = w.mtxclient.isSome

/-- A message uses a null client or throws exactly if no client has been made or what is dumped is
no UTF-8. -/
theorem matrixMessage_crashes {w : Matrix.World O} (made : Made w) (usr ad msg : Bytes) :
    (∃ thrown w', (Matrix.matrixMessage usr ad msg).run w = .error thrown w' ∧
      (Crash.matrix thrown).Counts) ↔
      ¬ (w.mtxclient.isSome = true ∧ Matrix.dumps (w.dumped usr ad msg) = true) := by
  cases here : w.mtxclient with
  | none =>
      have olmHere : w.olmclient = none := by simpa [Made, here] using made
      refine iff_of_true ?_ fun guarded => Bool.noConfusion guarded.1
      by_cases new : w.storage.inRoom w.matrixUser usr = []
      · refine ⟨.nullMtxclient, w, ?_, by intro same; cases same⟩
        unfold Matrix.matrixMessage
        rw [run_get_bind]
        dsimp only
        rw [if_pos new, Matrix.inviteRoom, run_get_bind]
        exact run_bind_error (Matrix.mtxclient_error here)
      · let storage := w.storage.touchOutboundGroupSession (w.storage.inRoom w.matrixUser usr)
        have missing' : ({ w with storage } : Matrix.World O).olmclient = none := olmHere
        refine ⟨.nullOlmclient, { w with storage }, ?_, by intro same; cases same⟩
        rw [Matrix.matrixMessage_old ad msg new]
        exact run_bind_error (run_bind_error (Matrix.olmclient_error missing'))
  | some client =>
      obtain ⟨olm, olmHere⟩ := Option.isSome_iff_exists.mp (made.trans (by rw [here]; rfl))
      rw [Option.isSome_some, and_iff_right rfl]
      by_cases new : w.storage.inRoom w.matrixUser usr = []
      · rw [Matrix.matrixMessage_new ad msg here new, Matrix.World.dumped, if_pos new]
        split
        · rename_i plain
          exact iff_of_false (by rintro ⟨_, _, ⟨⟩, -⟩) (not_not_intro plain)
        · rename_i odd
          exact iff_of_true ⟨_, _, rfl, by intro same; cases same⟩ odd
      · rw [Matrix.matrixMessage_old ad msg new, Matrix.World.dumped, if_neg new]
        -- in a room that is known the session can be missing, but the text is dumped before
        have touched : ∀ storage, ({ w with storage } : Matrix.World O).mtxclient = some client ∧
            ({ w with storage } : Matrix.World O).olmclient = some olm := fun _ => ⟨here, olmHere⟩
        generalize w.storage.touchOutboundGroupSession _ = storage
        generalize (w.storage.outboundGroupSessions.get?
          (w.storage.inRoom w.matrixUser usr)).getD none = session
        obtain ⟨here', olmHere'⟩ := touched storage
        by_cases plain : Matrix.dumps [w.storage.inRoom w.matrixUser usr, msg] = true
        · refine iff_of_false ?_ (not_not_intro plain)
          rintro ⟨thrown, w', ran, counts⟩
          cases session with
          | none =>
              rw [run_bind_error (Matrix.sendGroupMessage_null _ olmHere' plain)] at ran
              cases ran
              exact counts rfl
          | some session =>
              rw [run_bind_ok (Matrix.sendGroupMessage_run here' olmHere' session _ plain)] at ran
              cases ran
        · have thrown := Matrix.sendGroupMessage_odd session
            ((storage.outboundGroupSessionData.get? (w.storage.inRoom w.matrixUser usr)).getD
              ⟨[], [], 0⟩).sessionId olmHere' plain
          exact iff_of_true ⟨.json, _, run_bind_error thrown, by intro same; cases same⟩ plain

/-- A line crashes, in one of the ways that count. -/
def Crashes (result : EStateM.Result Crash (Prompt O) Unit) : Prop :=
  ∃ crash p', result = .error crash p' ∧ crash.Counts

theorem not_crashes_ok : ¬ Crashes (.ok () p : EStateM.Result Crash (Prompt O) Unit) := by
  rintro ⟨crash, p', failed, -⟩
  cases failed

theorem sendCmd_crashes (cmd : Bytes) (results : List Poll) (p : Prompt O) :
    Crashes ((sendCmd X Z cmd results).run p) ↔
      ¬ (authored X p.cli.wallet cmd ≠ none → Z.connects p.piacHost = true) := by
  rw [sendCmd_run, Classical.not_imp, Bool.not_eq_true]
  split
  · rename_i fails
    exact iff_of_true ⟨_, _, rfl, nofun⟩ fails
  · rename_i returns
    exact iff_of_false not_crashes_ok returns

theorem msgLine_crashes (made : Made p.world) (buf : Bytes) :
    Crashes ((msgLine buf).run p) ↔ ¬ Sendable p.world (tokenize buf) := by
  unfold msgLine Sendable
  split
  · rename_i first otherUser msg tokens
    rw [← matrixMessage_crashes made otherUser (bytes "ad") msg, run_get_bind]
    cases ran : (Matrix.matrixMessage otherUser (bytes "ad") msg).run p.world with
    | ok a world => exact iff_of_false not_crashes_ok nofun
    | error thrown world =>
        constructor
        · rintro ⟨crash, p', failed, counts⟩
          cases failed
          exact ⟨thrown, world, rfl, counts⟩
        · rintro ⟨thrown', w', same, counts⟩
          cases same
          exact ⟨_, _, rfl, counts⟩
  · exact iff_of_false not_crashes_ok (not_not_intro trivial)

theorem matrixLine_crashes (buf : Bytes) (p : Prompt O) : Crashes ((matrixLine buf).run p) ↔
    ¬ ((tokenize buf).length = 4 → p.wallet.isSome = true) := by
  unfold matrixLine
  split
  · rename_i first host tokens
    rw [tokens, run_get_bind]
    refine iff_of_false ?_ fun unguarded => unguarded nofun
    split <;> exact not_crashes_ok
  · rename_i first server username password tokens
    have four : [first, server, username, password].length = 4 := rfl
    rw [tokens, Classical.not_imp, Bool.not_eq_true, and_iff_right four]
    cases here : p.wallet with
    | none => exact iff_of_true ⟨_, _, run_bind_error (theWallet_error here), nofun⟩ rfl
    | some wallet =>
        rw [run_bind_ok (theWallet_run here)]
        exact iff_of_false not_crashes_ok nofun
  · rename_i other
    refine iff_of_false not_crashes_ok fun unguarded => unguarded fun four => ?_
    match tokens : tokenize buf, four with
    | [first, server, username, password], _ => exact absurd tokens (other _ _ _ _)

theorem userLine_crashes (buf : Bytes) (p : Prompt O) :
    Crashes ((userLine restore buf).run p) ↔ ¬ (wordcount (buf.drop 5) = 25 →
      restore (buf.drop 5) p.monerodHost ≠ none) := by
  unfold userLine
  dsimp only
  by_cases empty : buf.drop 5 = []
  · rw [if_pos empty, showWallet_run, empty]
    refine iff_of_false not_crashes_ok fun unguarded => unguarded fun words => ?_
    cases words
  by_cases words : wordcount (buf.drop 5) = 25
  · rw [if_neg empty, if_neg (not_not_intro words), Classical.not_imp, not_not, and_iff_right words,
      run_get_bind]
    cases restored : restore (buf.drop 5) p.monerodHost with
    | none => exact iff_of_true ⟨_, _, rfl, nofun⟩ rfl
    | some wallet => exact iff_of_false not_crashes_ok nofun
  · rw [if_neg empty, if_pos words]
    exact iff_of_false not_crashes_ok fun unguarded => unguarded fun counted => absurd counted words

/-- **A line crashes exactly if it is not guarded.** -/
theorem line_crashes_iff (made : Made p.world) (input : TypedLine) :
    Crashes ((perform restore X Z input).run p) ↔ ¬ p.Guarded X Z restore (.line input) := by
  simp only [perform, Guarded]
  cases Command.read input.buf with
  | balance | keys =>
      refine iff_of_false ?_ (not_not_intro trivial)
      rw [showWallet_run]
      exact not_crashes_ok
  | db => exact sendCmd_crashes _ _ p
  | peers =>
      have sends : authored X p.cli.wallet (bytes "peers") ≠ none := by
        rw [authored, if_neg (by decide +kernel)]
        nofun
      rw [sendCmd_crashes, imp_iff_right sends]
  | msg => exact msgLine_crashes made _
  | matrix => exact matrixLine_crashes _ p
  | user => exact userLine_crashes _ p
  | monerod =>
      refine iff_of_false ?_ (not_not_intro trivial)
      dsimp only [monerodLine]
      split <;> exact not_crashes_ok
  | quit | new | server | help | sleep | version | unknown =>
      exact iff_of_false not_crashes_ok (not_not_intro trivial)

/-! ## The loop of `Client.Cli` -/

theorem other_prefix_false {x y buf : Bytes} (here : x.isPrefixOf buf = true)
    (differ : (x.isPrefixOf y || y.isPrefixOf x) = false) : y.isPrefixOf buf = false := by
  rw [Bool.or_eq_false_iff] at differ
  by_contra there
  have there : y.isPrefixOf buf = true := Bool.not_eq_false _ ▸ there
  rw [List.isPrefixOf_iff_prefix] at here there
  rcases Nat.le_total x.length y.length with le | le
  · have inside := List.isPrefixOf_iff_prefix.mpr (List.prefix_of_prefix_length_le here there le)
    rw [inside] at differ
    cases differ.1
  · have inside := List.isPrefixOf_iff_prefix.mpr (List.prefix_of_prefix_length_le there here le)
    rw [inside] at differ
    cases differ.2

/-- A line with another prefix is none of those that `Client.Cli` looks at. -/
theorem read_other {x buf : Bytes} (here : x.isPrefixOf buf = true) (balance : buf ≠ bytes "balance")
    (db : ¬ (bytes "db").isPrefixOf buf = true)
    (quit : ¬ (buf = bytes "exit" ∨ (bytes "q").isPrefixOf buf = true))
    (differ : ∀ y ∈ [bytes "new", bytes "peers", bytes "server", bytes "user"],
      (x.isPrefixOf y || y.isPrefixOf x) = false) : CliCommand.read buf = .other := by
  have unlike : ∀ y ∈ [bytes "new", bytes "peers", bytes "server", bytes "user"],
      ¬ y.isPrefixOf buf = true := fun y member there => by
    rw [other_prefix_false here (differ y member)] at there
    cases there
  have not_equal : ∀ y ∈ [bytes "new", bytes "peers", bytes "server", bytes "user"], buf ≠ y := by
    rintro y member rfl
    exact unlike buf member (List.isPrefixOf_iff_prefix.mpr (List.prefix_refl buf))
  rw [CliCommand.read, if_neg balance, if_neg db, if_neg quit,
    if_neg (not_equal _ (by decide +kernel)), if_neg (not_equal _ (by decide +kernel)),
    if_neg (unlike _ (by decide +kernel)), if_neg (unlike _ (by decide +kernel))]

/-- A line is read as in `Client.Cli`. -/
theorem read_toCli (buf : Bytes) : CliCommand.read buf = (Command.read buf).toCli := by
  rw [Command.read]
  by_cases balance : buf = bytes "balance"
  · subst balance
    decide +kernel
  rw [if_neg balance]
  by_cases db : (bytes "db").isPrefixOf buf = true
  · rw [if_pos db, CliCommand.read, if_neg balance, if_pos db]
    rfl
  rw [if_neg db]
  by_cases quit : buf = bytes "exit" ∨ (bytes "q").isPrefixOf buf = true
  · have quit' : buf = bytes "exit" ∨ buf = bytes "quit" ∨ (bytes "q").isPrefixOf buf = true :=
      quit.imp_right .inr
    rw [if_pos quit', CliCommand.read, if_neg balance, if_neg db, if_pos quit]
    rfl
  have quit' : ¬ (buf = bytes "exit" ∨ buf = bytes "quit" ∨ (bytes "q").isPrefixOf buf = true) := by
    rintro (exit | rfl | q)
    · exact quit (.inl exit)
    · exact quit (.inr (by decide +kernel))
    · exact quit (.inr q)
  rw [if_neg quit']
  have other {x : Bytes} (here : x.isPrefixOf buf = true) := read_other here balance db quit
  by_cases help : buf = bytes "help"
  · subst help
    decide +kernel
  by_cases keys : buf = bytes "keys"
  · subst keys
    decide +kernel
  rw [if_neg help, if_neg keys]
  by_cases msg : (bytes "msg").isPrefixOf buf = true
  · rw [if_pos msg, other msg (by decide +kernel)]
    rfl
  by_cases matrix : (bytes "matrix").isPrefixOf buf = true
  · rw [if_neg msg, if_pos matrix, other matrix (by decide +kernel)]
    rfl
  by_cases monerod : (bytes "monerod").isPrefixOf buf = true
  · rw [if_neg msg, if_neg matrix, if_pos monerod, other monerod (by decide +kernel)]
    rfl
  rw [if_neg msg, if_neg matrix, if_neg monerod]
  by_cases new : buf = bytes "new"
  · subst new
    decide +kernel
  by_cases peers : buf = bytes "peers"
  · subst peers
    decide +kernel
  rw [if_neg new, if_neg peers]
  by_cases server : (bytes "server").isPrefixOf buf = true
  · rw [if_pos server, CliCommand.read, if_neg balance, if_neg db, if_neg quit, if_neg new,
      if_neg peers, if_pos server]
    rfl
  rw [if_neg server]
  by_cases sleep : (bytes "sleep").isPrefixOf buf = true
  · rw [if_pos sleep, other sleep (by decide +kernel)]
    rfl
  rw [if_neg sleep, CliCommand.read, if_neg balance, if_neg db, if_neg quit, if_neg new,
    if_neg peers, if_neg server]
  by_cases user : (bytes "user").isPrefixOf buf = true
  · rw [if_pos user, if_pos user]
    rfl
  rw [if_neg user, if_neg user]
  by_cases version : buf = bytes "version"
  · rw [if_pos version]
    rfl
  · rw [if_neg version]
    rfl

/-- A `server` line leaves the other variables as they are. -/
theorem server_cli (buf : Bytes) : ({ p with
    piacHost := (p.cli.server buf).piacHost
    rpcServerPublicKey := (p.cli.server buf).rpcServerPublicKey } : Prompt O).cli =
      p.cli.server buf := by
  unfold Cli.server
  split
  · rfl
  · rfl
  · rfl
  · split <;> rfl

/-! ## The clients -/

section Clients

open Piac.Matrix

variable {w w' : World O}

theorem made_of_does {L : Limits} (made : Made w) (does : Does L w w') : Made w' :=
  does.olmclient.trans (made.trans does.mtxclient.symm)

theorem made_answer (i : Nat) (made : Made w) : Made (w.answer i) :=
  made.trans Option.isSome_map.symm

theorem made_opens {server username password dbKey : Bytes} {fresh : O.Account} (made : Made w)
    (stepped : Matrix.step w (.opens server username password dbKey fresh) = some w') : Made w' := by
  rw [step_opens] at stepped
  split at stepped
  · cases stepped
    exact made
  · split at stepped
    · cases stepped
      exact made
    · split at stepped
      · cases stepped
      · cases stepped
        rfl

theorem made_thread {e : Matrix.Event O} (ofThread : OfThread e = true) (made : Made w)
    (stepped : Matrix.step w e = some w') : Made w' := by
  have callback : e.Callback → Made w' := fun callback =>
    made_of_does made (callback_step callback stepped).2
  cases e with
  | loggedIn res => exact callback trivial
  | keysUploaded login ok => exact callback trivial
  | initialSynced retry res => exact callback trivial
  | synced res => exact callback trivial
  | queriedKeys res => exact made_of_does made (queriedKeys_step stepped).2
  | created i roomId fresh usr msg =>
      obtain ⟨usr, msg, -, -, does⟩ := created_step stepped
      exact made_of_does (made_answer i made) does
  | claimed i res =>
      obtain ⟨member, dev, payload, -, -, does⟩ := claimed_step stepped
      exact made_of_does (made_answer i made) does
  | closes =>
      obtain ⟨-, -, obj, olm, -, -, rfl⟩ := closes_step stepped
      exact made
  | opens server username password dbKey fresh => cases ofThread
  | message usr ad msg => cases ofThread
  | disconnect => cases ofThread

theorem made_message {usr ad msg : Bytes} (made : Made w)
    (ran : (matrixMessage usr ad msg).run w = .ok () w') : Made w' := by
  have stepped : Matrix.step w (.message usr ad msg) = some w' := by
    show (match (matrixMessage usr ad msg).run w with | .ok _ w' => some w' | .error .. => _) = _
    rw [ran]
  obtain ⟨client, here, -, ⟨-, rfl⟩ | ⟨-, olm, session, olmHere, -, rfl⟩⟩ := message_step stepped
  · exact made.trans (by rw [here]; rfl)
  · show w.olmclient.isSome = (w.mtxclient.map _).isSome
    rw [Option.isSome_map]
    exact made

end Clients

/-! ## Lines that end -/

theorem msgLine_ok {buf : Bytes} (ran : (msgLine buf).run p = .ok () p') : p' = p ∨
    ∃ usr msg world, (Matrix.matrixMessage usr (bytes "ad") msg).run p.world = .ok () world ∧
      p' = { p with world } := by
  unfold msgLine at ran
  split at ran
  · rename_i first otherUser msg tokens
    rw [run_get_bind] at ran
    cases sent : (Matrix.matrixMessage otherUser (bytes "ad") msg).run p.world with
    | ok a world =>
        rw [sent] at ran
        cases ran
        exact .inr ⟨otherUser, msg, world, sent, rfl⟩
    | error thrown world =>
        rw [sent] at ran
        cases ran
  · cases ran
    exact .inl rfl

theorem matrixLine_ok {buf : Bytes} (ran : (matrixLine buf).run p = .ok () p') : p' = p ∨
    p' = { p with world := { p.world with shutdown := true }, phase := .joining } ∨
    ∃ starting, p' = { p with starting } := by
  unfold matrixLine at ran
  split at ran
  · rw [run_get_bind] at ran
    split at ran
    · cases ran
      exact .inr (.inl rfl)
    · cases ran
      exact .inl rfl
  · rcases Option.eq_none_or_eq_some p.wallet with missing | ⟨wallet, here⟩
    · rw [run_bind_error (theWallet_error missing)] at ran
      cases ran
    · rw [run_bind_ok (theWallet_run here)] at ran
      cases ran
      exact .inr (.inr ⟨_, rfl⟩)
  · cases ran
    exact .inl rfl

theorem userLine_ok {buf : Bytes} (ran : (userLine restore buf).run p = .ok () p') : p' = p ∨
    ∃ wallet, p' = { p with wallet := some wallet } := by
  unfold userLine at ran
  dsimp only at ran
  split at ran
  · rw [showWallet_run] at ran
    cases ran
    exact .inl rfl
  · split at ran
    · cases ran
      exact .inl rfl
    · rw [run_get_bind] at ran
      split at ran
      · cases ran
      · cases ran
        exact .inr ⟨_, rfl⟩

theorem monerodLine_ok {buf : Bytes} (ran : (monerodLine buf).run p = .ok () p') :
    ∃ monerodHost, p' = { p with monerodHost } := by
  unfold monerodLine at ran
  split at ran <;> cases ran <;> exact ⟨_, rfl⟩

theorem sendCmd_ok {cmd : Bytes} {results : List Poll}
    (ran : (sendCmd X Z cmd results).run p = .ok () p') : p' = p := by
  rw [sendCmd_run] at ran
  split at ran <;> cases ran
  rfl

/-- **A line does to the variables what it does in `Client.Cli`.** -/
theorem line_update {input : TypedLine} (ran : (perform restore X Z input).run p = .ok () p') :
    ∃ opened, p'.cli = p.cli.update ⟨input.buf, opened, input.results⟩ := by
  simp only [Cli.update, read_toCli]
  unfold perform at ran
  cases command : Command.read input.buf with
  | balance | keys =>
      rw [command] at ran
      dsimp only at ran
      rw [showWallet_run] at ran
      cases ran
      exact ⟨none, rfl⟩
  | db | peers =>
      rw [command] at ran
      exact ⟨none, congrArg cli (sendCmd_ok ran)⟩
  | msg =>
      rw [command] at ran
      obtain rfl | ⟨usr, msg, world, -, rfl⟩ := msgLine_ok ran <;> exact ⟨none, rfl⟩
  | matrix =>
      rw [command] at ran
      obtain rfl | rfl | ⟨starting, rfl⟩ := matrixLine_ok ran <;> exact ⟨none, rfl⟩
  | user =>
      rw [command] at ran
      obtain rfl | ⟨wallet, rfl⟩ := userLine_ok ran
      · exact ⟨none, rfl⟩
      · exact ⟨some wallet.address, rfl⟩
  | monerod =>
      rw [command] at ran
      obtain ⟨monerodHost, rfl⟩ := monerodLine_ok ran
      exact ⟨none, rfl⟩
  | new =>
      rw [command] at ran
      cases ran
      exact ⟨some input.fresh.address, rfl⟩
  | server =>
      rw [command] at ran
      cases ran
      exact ⟨none, server_cli input.buf⟩
  | quit | help | sleep | version | unknown =>
      rw [command] at ran
      cases ran
      exact ⟨none, rfl⟩

/-- The clients are both there or both missing, and no line has crashed. -/
structure Alive (p : Prompt O) : Prop where
  made : Made p.world
  phase : ∀ crash, p.phase ≠ .crashed crash

theorem alive_line {input : TypedLine} (alive : p.Alive)
    (ran : (perform restore X Z input).run p = .ok () p') : p'.Alive := by
  unfold perform at ran
  cases command : Command.read input.buf with
  | balance | keys =>
      rw [command] at ran
      dsimp only at ran
      rw [showWallet_run] at ran
      cases ran
      exact alive
  | db | peers =>
      rw [command] at ran
      rw [sendCmd_ok ran]
      exact alive
  | msg =>
      rw [command] at ran
      obtain rfl | ⟨usr, msg, world, sent, rfl⟩ := msgLine_ok ran
      · exact alive
      · exact ⟨made_message alive.made sent, alive.phase⟩
  | matrix =>
      rw [command] at ran
      obtain rfl | rfl | ⟨starting, rfl⟩ := matrixLine_ok ran
      · exact alive
      · exact ⟨alive.made, nofun⟩
      · exact ⟨alive.made, alive.phase⟩
  | user =>
      rw [command] at ran
      obtain rfl | ⟨wallet, rfl⟩ := userLine_ok ran
      · exact alive
      · exact ⟨alive.made, alive.phase⟩
  | monerod =>
      rw [command] at ran
      obtain ⟨monerodHost, rfl⟩ := monerodLine_ok ran
      exact ⟨alive.made, alive.phase⟩
  | quit =>
      rw [command] at ran
      cases ran
      exact ⟨alive.made, nofun⟩
  | new | server =>
      rw [command] at ran
      cases ran
      exact ⟨alive.made, alive.phase⟩
  | help | sleep | version | unknown =>
      rw [command] at ran
      cases ran
      exact alive

/-! ## Runs -/

/-- The process has crashed in one of the ways that count. -/
def Crashed (p : Prompt O) : Prop := ∃ crash, p.phase = .crashed crash ∧ crash.Counts

theorem stuck {l : Label O} {crash : Crash} (crashed : p.phase = .crashed crash) :
    step X Z restore p l = none := by
  cases l <;> simp [step, goesOn, crashed]

theorem Alive.not_crashed (alive : p.Alive) : ¬ p.Crashed :=
  fun ⟨crash, phase, _⟩ => alive.phase crash phase

/-- What a step does to a process that is alive. -/
theorem alive_step {l : Label O} (alive : p.Alive) (stepped : step X Z restore p l = some p') :
    (p'.Alive ∨ ∃ crash, p'.phase = .crashed crash) ∧
      (p'.Crashed ↔ ¬ p.Guarded X Z restore l) := by
  have fine (alive' : p'.Alive) (guarded : p.Guarded X Z restore l) :
      (p'.Alive ∨ ∃ crash, p'.phase = .crashed crash) ∧
        (p'.Crashed ↔ ¬ p.Guarded X Z restore l) :=
    ⟨.inl alive', iff_of_false alive'.not_crashed (not_not_intro guarded)⟩
  cases l with
  | line input =>
      obtain ⟨prompt, is⟩ := Option.ite_none_right_eq_some.mp stepped
      cases is
      rw [← line_crashes_iff alive.made input]
      unfold enter
      cases ran : (perform restore X Z input).run p with
      | ok a p' =>
          have alive' := alive_line alive ran
          exact ⟨.inl alive', iff_of_false alive'.not_crashed not_crashes_ok⟩
      | error crash p' =>
          refine ⟨.inr ⟨crash, rfl⟩, ?_⟩
          constructor
          · rintro ⟨crash', phase, counts⟩
            cases phase
            exact ⟨crash, p', rfl, counts⟩
          · rintro ⟨crash', p'', same, counts⟩
            cases same
            exact ⟨crash, rfl, counts⟩
  | eof =>
      obtain ⟨prompt, is⟩ := Option.ite_none_right_eq_some.mp stepped
      cases is
      exact fine ⟨alive.made, nofun⟩ trivial
  | starts i fresh =>
      obtain ⟨on, is⟩ := Option.ite_none_right_eq_some.mp stepped
      obtain ⟨l, -, is⟩ := Option.bind_eq_some_iff.mp is
      obtain ⟨world, opened, rfl⟩ := Option.map_eq_some_iff.mp is
      exact fine ⟨made_opens alive.made opened, alive.phase⟩ trivial
  | thread e =>
      obtain ⟨⟨on, ofThread⟩, is⟩ := Option.ite_none_right_eq_some.mp stepped
      obtain ⟨world, moved, rfl⟩ := Option.map_eq_some_iff.mp is
      exact fine ⟨made_thread ofThread alive.made moved, alive.phase⟩ trivial
  | returns =>
      obtain ⟨-, is⟩ := Option.ite_none_right_eq_some.mp stepped
      cases is
      exact fine ⟨alive.made, nofun⟩ trivial

section Session

variable {rpcServerPublicKey : Bytes} {rpcClientKeys : Keypair} {disk : Bytes → Option Bytes}
  {labels : List (Label O)}

theorem alive_init : (init rpcServerPublicKey rpcClientKeys disk : Prompt O).Alive := ⟨rfl, nofun⟩

theorem alive_run {allowed : Prompt O → Label O → Prop}
    (run : Run (step X Z restore) allowed (init rpcServerPublicKey rpcClientKeys disk) labels p) :
    p.Alive ∨ ∃ crash, p.phase = .crashed crash := by
  induction run with
  | nil => exact .inl alive_init
  | snoc before ok stepped ih =>
      rcases ih with alive | ⟨crash, crashed⟩
      · exact (alive_step alive stepped).1
      · rw [stuck crashed] at stepped
        cases stepped

/-- What can still take a step is alive. -/
theorem alive_of_step {allowed : Prompt O → Label O → Prop} {l : Label O}
    (run : Run (step X Z restore) allowed (init rpcServerPublicKey rpcClientKeys disk) labels p)
    (stepped : step X Z restore p l = some p') : p.Alive := by
  rcases alive_run run with alive | ⟨crash, crashed⟩
  · exact alive
  · rw [stuck crashed] at stepped
    cases stepped

/-- **A session crashes exactly if one of its lines is not guarded.** -/
theorem prompt_safe
    (run : Run (step X Z restore) (fun _ _ => True) (init rpcServerPublicKey rpcClientKeys disk)
      labels p) :
    ¬ p.Crashed ↔ Run (step X Z restore) (Guarded X Z restore)
      (init rpcServerPublicKey rpcClientKeys disk) labels p := by
  constructor
  · intro safe
    induction run with
    | nil => exact .nil
    | snoc before ok stepped ih =>
        have alive := alive_of_step before stepped
        exact .snoc (ih alive.not_crashed)
          (by_contra fun unguarded => safe ((alive_step alive stepped).2.mpr unguarded)) stepped
  · intro guarded
    cases guarded with
    | nil => exact alive_init.not_crashed
    | snoc before ok stepped =>
        exact fun crashed => (alive_step (alive_of_step before stepped) stepped).2.mp crashed ok

end Session

/-! ## Sessions -/

section Sessions

open Piac.Matrix

instance (p : Prompt O) (l : Label O) : Decidable (p.Guarded X Z restore l) := by
  unfold Guarded
  split
  · split <;> infer_instance
  · infer_instance

/-- Wallets can be restored from 25 times the same word. -/
def restoreAbbey (mnemonic _ : Bytes) : Option Wallet :=
  if words [] mnemonic = .replicate 25 (bytes "abbey") then some ⟨bytes "restored", bytes "key"⟩
  else none

def begin_ : Prompt plain := init [] ⟨[], []⟩ fun _ => none

def typesBytes (line : Bytes) : Label plain :=
  .line ⟨line, ⟨bytes "new", bytes "key"⟩, [.timeout, .input (bytes "reply")]⟩

def types (line : String) : Label plain := typesBytes (bytes line)

/-- The lines of the session in one list, with the thread that the login starts. -/
def session : List (Label plain) :=
  [types "msg @bob:hs", types "balance", types "db add json ad.json", types "server \"\"", types "new",
    types "server localhost:55090", types "peers", types "db list", types "user one two",
    types "matrix hs alice pw", .starts 0 (0 : Nat), types "msg @bob:hs hello",
    types "matrix disconnect"]

/-- It applies to a session with a login and a message. -/
theorem prompt_safe_session :
    ¬ ((exec (guarded (step (reference true) (referenceCurve true) restoreAbbey)
      (Guarded (reference true) (referenceCurve true) restoreAbbey)) begin_ session).get
        (by decide +kernel)).Crashed :=
  (prompt_safe (Run.weaken (.checked (by decide +kernel)) fun _ _ _ => trivial)).mpr
    (.checked (by decide +kernel))

/-- How a session ends in a process that has just started. -/
def endsIn (lines : List (Label plain)) : Option (Prompt plain) :=
  exec (step (reference true) (referenceCurve true) restoreAbbey) begin_ lines

theorem crashed_of_phase {lines : List (Label plain)} (crash : Crash)
    (phase : (endsIn lines).map Prompt.phase = some (.crashed crash)) (counts : crash.Counts) :
    ∃ p, endsIn lines = some p ∧ p.Crashed := by
  obtain ⟨p, ends, phase⟩ := Option.map_eq_some_iff.mp phase
  exact ⟨p, ends, crash, phase, counts⟩

/-- A message and a login before anything else, a command for a server that was cleared, 25 words
that are no mnemonic, and a user that is no UTF-8. -/
theorem prompt_crashes :
    (∃ p, endsIn [types "msg @bob:hs hello"] = some p ∧ p.Crashed) ∧
    (∃ p, endsIn [types "matrix hs alice pw"] = some p ∧ p.Crashed) ∧
    (∃ p, endsIn [types "server \"\"", types "db list"] = some p ∧ p.Crashed) ∧
    (∃ p, endsIn [types "user 1 2 3 4 5 6 7 8 9 10 11 12 13 14 15 16 17 18 19 20 21 22 23 24 25"] =
      some p ∧ p.Crashed) ∧
    ∃ p, endsIn [types "new", types "matrix hs alice pw", .starts 0 (0 : Nat),
      typesBytes (bytes "msg @bob:" ++ [0xFF] ++ bytes " hello")] = some p ∧ p.Crashed := by
  refine ⟨crashed_of_phase (.matrix .nullMtxclient) (by decide +kernel) nofun,
    crashed_of_phase .nullWallet (by decide +kernel) nofun,
    crashed_of_phase (.zmq .endpoint) (by decide +kernel) nofun,
    crashed_of_phase .monero (by decide +kernel) nofun,
    crashed_of_phase (.matrix .json) (by decide +kernel) nofun⟩

end Sessions

end Prompt

end Piac
