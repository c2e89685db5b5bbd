/-
# Client.Cli — the command line of the client

`main` of the client reads its options, loads the keys they name (`setupClient`) and
takes one line after the other: `db` and `peers` lines are sent to the daemon, a
`server` line sets its host and, if there is a third word, its public key, without a
look at it (`Cli.session`).

* `session_secured`: nothing of a session is in clear text if the keys it starts with
  are well-formed and those of its `server` lines as well.
* `client_secured`: so nothing is that a client started with `--rpc-secure` sends, if
  the keys of its options and files are well-formed, too.
-/
import Piac.Client.Pirate

namespace Piac

set_option autoImplicit false

open Piac.Theory.CppString

/-! ## Options and keys -/

inductive CliOption where
  | rpcSecure
  | rpcClientPublicKeyFile (filename : Bytes)
  | rpcClientSecretKeyFile (filename : Bytes)
  | rpcServerPublicKey (key : Bytes)
  | rpcServerPublicKeyFile (filename : Bytes)
  deriving DecidableEq

/-- The variables of `main` that these options set. -/
structure CliOptions where
  rpcSecure : Bool
  rpcClientPublicKeyFile : Bytes
  rpcClientSecretKeyFile : Bytes
  rpcServerPublicKey : Bytes
  rpcServerPublicKeyFile : Bytes
  deriving DecidableEq

namespace CliOptions

def default : CliOptions :=
  { rpcSecure := false, rpcClientPublicKeyFile := [], rpcClientSecretKeyFile := [],
    rpcServerPublicKey := [], rpcServerPublicKeyFile := [] }

def set (o : CliOptions) : CliOption → CliOptions
  | .rpcSecure => { o with rpcSecure := true }
  | .rpcClientPublicKeyFile filename => { o with rpcClientPublicKeyFile := filename }
  | .rpcClientSecretKeyFile filename => { o with rpcClientSecretKeyFile := filename }
  | .rpcServerPublicKey key => { o with rpcServerPublicKey := key }
  | .rpcServerPublicKeyFile filename => { o with rpcServerPublicKeyFile := filename }

def read (options : List CliOption) : CliOptions := options.foldl set default

end CliOptions

/-- Why no prompt comes up. -/
inductive CliExit where
  /-- "Need --rpc-secure to secure RPC channel." -/
  | needRpcSecure
  /-- "Need --rpc-server-public-key or --rpc-server-public-key-file to secure RPC channel." -/
  | needServerKey
  /-- `exit( EXIT_FAILURE )` of `load_key`. -/
  | unreadableKey
  /-- An `assert` on the size of a key. -/
  | keySize
  deriving DecidableEq

variable (X : Platform) (Z : Curve)

/-- `load_key` into a string that may hold a key already. -/
def loadKey (files : Files) (filename key : Bytes) : Except CliExit Bytes :=
  if filename = [] ∨ key ≠ [] then .ok key
  else
    match files (cstr filename) with
    | none => .error .unreadableKey
    | some content =>
        let key := firstWord content
        if Z.ndebug || key.length = 40 then .ok key else .error .keySize

/-- The variables of the loop over the lines; a wallet is known by its address. -/
structure Cli where
  piacHost : Bytes
  rpcServerPublicKey : Bytes
  rpcClientKeys : Keypair
  wallet : Option Bytes
  deriving DecidableEq

/-- `main` up to its loop. -/
def setupClient (options : List CliOption) (files : Files) : Except CliExit Cli := do
  let o := CliOptions.read options
  if (o.rpcClientPublicKeyFile ≠ [] ∨ o.rpcClientSecretKeyFile ≠ [] ∨ o.rpcServerPublicKey ≠ [] ∨
      o.rpcServerPublicKeyFile ≠ []) ∧ o.rpcSecure = false then throw .needRpcSecure
  if o.rpcSecure ∧ o.rpcServerPublicKey = [] ∧ o.rpcServerPublicKeyFile = [] then
    throw .needServerKey
  let host := bytes "localhost:55090"
  if o.rpcSecure then
    let serverKey ← loadKey Z files o.rpcServerPublicKeyFile o.rpcServerPublicKey
    if !(Z.ndebug || serverKey.length = 40) then throw .keySize
    let publicKey ← loadKey Z files o.rpcClientPublicKeyFile []
    let secretKey ← loadKey Z files o.rpcClientSecretKeyFile []
    let keys := if secretKey = [] ∨ publicKey = [] then Z.generateKeypair else ⟨publicKey, secretKey⟩
    return ⟨host, serverKey, keys, none⟩
  else return ⟨host, o.rpcServerPublicKey, ⟨[], []⟩, none⟩

/-! ## Lines -/

/-- The branches of the loop that touch its variables or the daemon. -/
inductive CliCommand where
  | db
  | quit
  | wallet
  | peers
  | server
  | other
  deriving DecidableEq

def CliCommand.read (buf : Bytes) : CliCommand :=
  if buf = bytes "balance" then .other
  else if (bytes "db").isPrefixOf buf then .db
  else if buf = bytes "exit" ∨ (bytes "q").isPrefixOf buf then .quit
  else if buf = bytes "new" then .wallet
  else if buf = bytes "peers" then .peers
  else if (bytes "server").isPrefixOf buf then .server
  else if (bytes "user").isPrefixOf buf then .wallet
  else .other

/-- A line, the wallet that a `new` or `user` line opens, and the results of the polls of the
call it leads to. -/
structure CliLine where
  buf : Bytes
  opened : Option Bytes
  results : List Poll

/-- What `send_cmd` makes of a line, if it sends anything. -/
def authored (wallet : Option Bytes) (buf : Bytes) : Option Bytes :=
  let cmd := trim buf
  if bytes "db" <:+: cmd ∧ (bytes "add" <:+: cmd ∨ bytes "rm" <:+: cmd) then
    wallet.map fun address => cmd ++ bytes " AUTH:" ++ X.sha256 address
  else some cmd

/-- A `server` line. -/
def Cli.server (c : Cli) (buf : Bytes) : Cli :=
  match tokenize buf with
  | [] | [_] => c
  | [_, host] => { c with piacHost := if host = bytes "\"\"" then [] else host }
  | _ :: host :: key :: _ =>
      if host = bytes "\"\"" then { c with piacHost := [] }
      else { c with piacHost := host, rpcServerPublicKey := key }

/-- What a line makes of the variables. -/
def Cli.update (c : Cli) (line : CliLine) : Cli :=
  match CliCommand.read line.buf with
  | .wallet => { c with wallet := line.opened.or c.wallet }
  | .server => c.server line.buf
  | _ => c

/-- What a line has sent to the daemon. -/
def Cli.sends (c : Cli) (line : CliLine) : Option Bytes :=
  match CliCommand.read line.buf with
  | .db => authored X c.wallet line.buf
  | .peers => authored X c.wallet (bytes "peers")
  | _ => none

/-- The loop of `main`: a malformed host ends it by an exception. -/
def Cli.session : Cli → List CliLine → EStateM ZmqException Sent Cli
  | c, [] => pure c
  | c, line :: lines => do
      if CliCommand.read line.buf = .quit then return c
      match c.sends X line with
      | some cmd =>
          let _ ← pirateSend Z cmd c.piacHost c.rpcServerPublicKey c.rpcClientKeys line.results
      | none => pure ()
      Cli.session (c.update line) lines

variable {X Z}

/-! ## A session -/

/-- The key that a line sets. -/
def namedKey (buf : Bytes) : Option Bytes :=
  if CliCommand.read buf = .server then
    match tokenize buf with
    | _ :: host :: key :: _ => if host = bytes "\"\"" then none else some key
    | _ => none
  else none

theorem Cli.update_keys (c : Cli) (line : CliLine) :
    (c.update line).rpcServerPublicKey = (namedKey line.buf).getD c.rpcServerPublicKey ∧
      (c.update line).rpcClientKeys = c.rpcClientKeys := by
  unfold Cli.update namedKey
  cases CliCommand.read line.buf with
  | server =>
      rw [if_pos rfl]
      unfold Cli.server
      dsimp only
      match tokenize line.buf with
      | [] => exact ⟨rfl, rfl⟩
      | [_] => exact ⟨rfl, rfl⟩
      | [_, _] => exact ⟨rfl, rfl⟩
      | _ :: host :: key :: _ =>
          dsimp only
          split <;> exact ⟨rfl, rfl⟩
  | db | quit | wallet | peers | other => exact ⟨rfl, rfl⟩

variable (Z) in
/-- There is a server key, and the three keys are well-formed. -/
structure Cli.Ready (c : Cli) (clientKeys : Keypair) : Prop where
  given : c.rpcServerPublicKey ≠ []
  wellFormed : WellFormed Z c.rpcServerPublicKey clientKeys
  keys : c.rpcClientKeys = clientKeys

theorem Cli.Ready.update {c : Cli} {clientKeys : Keypair} {line : CliLine}
    (ready : c.Ready Z clientKeys)
    (keyed : ∀ key, namedKey line.buf = some key →
      key ≠ [] ∧ Z.accepts .curveServerKey key = true) : (c.update line).Ready Z clientKeys := by
  obtain ⟨serverKey, same⟩ := c.update_keys line
  cases named : namedKey line.buf with
  | none =>
      rw [named] at serverKey
      exact ⟨serverKey ▸ ready.given, serverKey ▸ ready.wellFormed, same.trans ready.keys⟩
  | some key =>
      rw [named] at serverKey
      obtain ⟨given, accepted⟩ := keyed key named
      exact ⟨serverKey ▸ given,
        ⟨serverKey ▸ accepted, ready.wellFormed.public_, ready.wellFormed.secret⟩,
        same.trans ready.keys⟩

theorem loadKey_nil {files : Files} {filename key : Bytes}
    (loaded : loadKey Z files filename [] = .ok key) : key = loadedKey files filename := by
  unfold loadKey at loaded
  by_cases named : filename = []
  · rw [if_pos (.inl named)] at loaded
    cases loaded
    rw [loadedKey, if_pos named]
  rw [if_neg (by simp [named])] at loaded
  cases opened : files (cstr filename) with
  | none =>
      rw [opened] at loaded
      cases loaded
  | some content =>
      rw [opened] at loaded
      rw [loadedKey_of_content named opened]
      dsimp only at loaded
      split at loaded <;> cases loaded
      rfl

/-- With `--rpc-secure` the loop starts with well-formed client keys, unless files with malformed
ones are named. -/
theorem setupClient_ready {options : List CliOption} {files : Files} {c : Cli}
    (done : setupClient Z options files = .ok c)
    (secure : (CliOptions.read options).rpcSecure = true)
    (given : c.rpcServerPublicKey ≠ [])
    (server : Z.accepts .curveServerKey c.rpcServerPublicKey = true)
    (clients : loadedKey files (CliOptions.read options).rpcClientPublicKeyFile = [] ∨
      loadedKey files (CliOptions.read options).rpcClientSecretKeyFile = [] ∨
      (Z.accepts .curvePublicKey
          (loadedKey files (CliOptions.read options).rpcClientPublicKeyFile) = true ∧
        Z.accepts .curveSecretKey
          (loadedKey files (CliOptions.read options).rpcClientSecretKeyFile) = true)) :
    c.Ready Z c.rpcClientKeys := by
  refine ⟨given, ?_, rfl⟩
  unfold setupClient at done
  simp only [secure, if_true, Bool.true_eq_false, and_false, if_false, true_and] at done
  split at done
  · cases done
  simp only [bind_eq_ok] at done
  obtain ⟨serverKey, -, rest⟩ := done
  split at rest
  · cases rest
  simp only [bind_eq_ok, pure_eq_ok] at rest
  obtain ⟨publicKey, loaded, secretKey, loaded', rfl⟩ := rest
  rw [loadKey_nil loaded, loadKey_nil loaded'] at *
  dsimp only
  split
  · exact ⟨server, Z.accepts_public, Z.accepts_secret⟩
  · rename_i both
    obtain ⟨secret, public_⟩ := not_or.mp both
    rcases clients with none_ | none_ | ⟨accepted, accepted'⟩
    · exact absurd none_ public_
    · exact absurd none_ secret
    · exact ⟨server, accepted, accepted'⟩

/-- **A session that starts with well-formed keys sends nothing in clear text** if each `server`
line that names a key names a well-formed one. -/
theorem session_secured {clientKeys : Keypair} (lines : List CliLine) (c : Cli)
    (ready : c.Ready Z clientKeys)
    (keyed : ∀ line ∈ lines, ∀ key, namedKey line.buf = some key →
      key ≠ [] ∧ Z.accepts .curveServerKey key = true) (sent : Sent)
    (before : ∀ s ∈ sent, ∃ key, key ≠ [] ∧ s.1.Secured key clientKeys) :
    ∀ s ∈ written ((c.session X Z lines).run sent), ∃ key, key ≠ [] ∧ s.1.Secured key clientKeys := by
  induction lines generalizing c sent with
  | nil => exact before
  | cons line lines ih =>
      have later := ih (c.update line) (ready.update (keyed line List.mem_cons_self))
        fun line' member => keyed line' (List.mem_cons_of_mem _ member)
      by_cases quit : CliCommand.read line.buf = .quit
      · simpa [Cli.session, quit, written] using before
      cases command : c.sends X line with
      | none => simpa [Cli.session, quit, command] using later sent before
      | some cmd =>
          have call := @pirateSend_sent Z cmd c.piacHost c.rpcServerPublicKey c.rpcClientKeys
            (fun s => ∃ key, key ≠ [] ∧ s.1.Secured key clientKeys) (fun server made =>
              ⟨_, ready.given, by
                rw [ready.keys] at made
                exact (secured_iff ready.given made).mpr ready.wellFormed⟩)
            line.results sent before
          cases done : (pirateSend Z cmd c.piacHost c.rpcServerPublicKey c.rpcClientKeys
            line.results).run sent with
          | error e after =>
              rw [done] at call
              simpa [Cli.session, quit, command, EStateM.run_bind, done, written] using call
          | ok p after =>
              rw [done] at call
              simpa [Cli.session, quit, command, EStateM.run_bind, done] using later after call

/-- **Nothing of a client set up with `--rpc-secure` is in clear text**, from its first line to its
last, if no key it is given is malformed. -/
theorem client_secured {options : List CliOption} {files : Files} {c : Cli}
    (done : setupClient Z options files = .ok c)
    (secure : (CliOptions.read options).rpcSecure = true)
    (given : c.rpcServerPublicKey ≠ [])
    (server : Z.accepts .curveServerKey c.rpcServerPublicKey = true)
    (clients : loadedKey files (CliOptions.read options).rpcClientPublicKeyFile = [] ∨
      loadedKey files (CliOptions.read options).rpcClientSecretKeyFile = [] ∨
      (Z.accepts .curvePublicKey
          (loadedKey files (CliOptions.read options).rpcClientPublicKeyFile) = true ∧
        Z.accepts .curveSecretKey
          (loadedKey files (CliOptions.read options).rpcClientSecretKeyFile) = true))
    (lines : List CliLine)
    (keyed : ∀ line ∈ lines, ∀ key, namedKey line.buf = some key →
      key ≠ [] ∧ Z.accepts .curveServerKey key = true) :
    ∀ s ∈ written ((c.session X Z lines).run []),
      ∃ key, key ≠ [] ∧ s.1.Secured key c.rpcClientKeys := by
  have ready := setupClient_ready done secure given server clients
  exact session_secured lines c ready keyed [] fun _ none_ => absurd none_ List.not_mem_nil

end Piac
