/-
# Daemon.Security — who may talk to the daemon

`main` reads the options of the RPC channel, refuses some combinations of them and
loads the keys they name; the db thread configures the authenticator from the list
of authorised clients and gives the socket its secret key. `openRpc` is all of it: the
reason why no daemon comes up, the authenticator in front of the socket, or none,
when the channel is in clear text.

`fails_closed` says exactly when a daemon that was given a file of authorised
clients admits nobody else. It does not when the name of that file is empty, when
the file has no key in it, and when a key file of the server cannot be read or is
empty: `main` then clears the list of the authorised clients, and the db thread
takes an empty list for everybody (`admits_anybody`).
-/
import Piac.Daemon.Curve

namespace Piac

set_option autoImplicit false

open Piac.Theory.CppString

/-! ## Options -/

/-- The options of `main` about the security of the RPC channel, as they stand on the command
line. -/
inductive RpcOption where
  | rpcSecure
  | rpcServerPublicKeyFile (filename : Bytes)
  | rpcServerSecretKeyFile (filename : Bytes)
  | rpcAuthorizedClientsFile (filename : Bytes)
  | rpcServerSavePublicKeyFile (filename : Bytes)
  deriving DecidableEq

/-- The variables of `main` that these options set. -/
structure RpcOptions where
  rpcSecure : Bool
  rpcServerPublicKeyFile : Bytes
  rpcServerSecretKeyFile : Bytes
  rpcAuthorizedClientsFile : Bytes
  rpcServerSavePublicKeyFile : Bytes
  deriving DecidableEq

namespace RpcOptions

def default : RpcOptions :=
  { rpcSecure := false, rpcServerPublicKeyFile := [], rpcServerSecretKeyFile := [],
    rpcAuthorizedClientsFile := [], rpcServerSavePublicKeyFile := bytes "stonehouse.pub" }

/-- One turn of the loop over the command line. -/
def set (o : RpcOptions) : RpcOption → RpcOptions
  | .rpcSecure => { o with rpcSecure := true }
  | .rpcServerPublicKeyFile filename => { o with rpcServerPublicKeyFile := filename }
  | .rpcServerSecretKeyFile filename => { o with rpcServerSecretKeyFile := filename }
  | .rpcAuthorizedClientsFile filename => { o with rpcAuthorizedClientsFile := filename }
  | .rpcServerSavePublicKeyFile filename => { o with rpcServerSavePublicKeyFile := filename }

def read (options : List RpcOption) : RpcOptions := options.foldl set default

end RpcOptions

/-- Why no daemon comes up. -/
inductive Refusal where
  /-- "Need --rpc-secure to secure RPC channel." -/
  | needRpcSecure
  /-- "Need --rpc-authorized-clients-file for authorized RPC clients." -/
  | needKeyFiles
  /-- `exit( EXIT_FAILURE )` of `load_client_keys`. -/
  | unreadableClients
  /-- `assert( key.size() == 40 )` of `load_server_key`. -/
  | keySize
  /-- `zmqpp::exception` of a malformed secret key; nothing in `db_thread` catches it. -/
  | malformedKey
  deriving DecidableEq

/-- The two checks of `main` on the options. -/
def checkOptions (o : RpcOptions) : Except Refusal Unit :=
  if (o.rpcServerPublicKeyFile ≠ [] ∨ o.rpcServerSecretKeyFile ≠ [] ∨
      o.rpcAuthorizedClientsFile ≠ []) ∧ o.rpcSecure = false then .error .needRpcSecure
  else if (o.rpcServerPublicKeyFile ≠ [] ∧ o.rpcServerSecretKeyFile = []) ∨
      (o.rpcServerPublicKeyFile = [] ∧ o.rpcServerSecretKeyFile ≠ []) then .error .needKeyFiles
  else .ok ()

/-! ## Keys -/

variable (Z : Curve)

/-- `load_server_key` into a key that is still empty. -/
def loadServerKey (files : Files) (filename : Bytes) : Except Refusal Bytes :=
  if filename = [] then .ok []
  else
    match files (cstr filename) with
    | none => .ok []
    | some content =>
        let key := firstWord content
        if Z.ndebug || key.length = 40 then .ok key else .error .keySize

/-- `load_client_keys` into a list that is still empty. -/
def loadClientKeys (files : Files) (filename : Bytes) : Except Refusal (List Bytes) :=
  if filename = [] then .ok []
  else
    match files (cstr filename) with
    | none => .error .unreadableClients
    | some content => .ok ((words [] content).filter fun key => key.length = 40)

/-- What `main` hands to `db_thread`, and the key it saves with the name of the file. -/
structure RpcSetup where
  rpcIronhouse : Bool
  rpcServerKeys : Keypair
  rpcAuthorizedClients : List Bytes
  saved : Option (Bytes × Bytes)
  deriving DecidableEq

/-- The fallback of `main` to a channel that anybody may use, if a key of the server or the list
of clients is missing. -/
def fallback (o : RpcOptions) (publicKey secretKey : Bytes) (clients : List Bytes) : RpcSetup :=
  if secretKey = [] ∨ publicKey = [] ∨ clients = [] then
    if secretKey = [] ∨ publicKey = [] then
      let keys := Z.generateKeypair
      let saved :=
        if o.rpcServerSavePublicKeyFile = [] then none
        else some (o.rpcServerSavePublicKeyFile, keys.publicKey)
      { rpcIronhouse := false, rpcServerKeys := keys, rpcAuthorizedClients := [], saved }
    else
      { rpcIronhouse := false, rpcServerKeys := ⟨publicKey, secretKey⟩,
        rpcAuthorizedClients := [], saved := none }
  else
    { rpcIronhouse := true, rpcServerKeys := ⟨publicKey, secretKey⟩,
      rpcAuthorizedClients := clients, saved := none }

/-- `main` under `--rpc-secure`. -/
def setupSecurity (o : RpcOptions) (files : Files) : Except Refusal RpcSetup := do
  let publicKey ← loadServerKey Z files o.rpcServerPublicKeyFile
  let secretKey ← loadServerKey Z files o.rpcServerSecretKeyFile
  let clients ← loadClientKeys files o.rpcAuthorizedClientsFile
  return fallback Z o publicKey secretKey clients

/-- The authenticator of `db_thread` under `--rpc-secure`. -/
def configureAuthenticator (clients : List Bytes) : Z.Auth :=
  if clients = [] then Z.configureCurve Z.authenticator (bytes "CURVE_ALLOW_ANY")
  else clients.foldl Z.configureCurve Z.authenticator

/-- The start of a daemon: what stands between a client and the RPC socket, nothing if the
channel is in clear text. -/
def openRpc (options : List RpcOption) (files : Files) : Except Refusal (Option Z.Auth) := do
  let o := RpcOptions.read options
  checkOptions o
  if o.rpcSecure then
    let setup ← setupSecurity Z o files
    let authenticator := configureAuthenticator Z setup.rpcAuthorizedClients
    if Z.accepts .curveSecretKey setup.rpcServerKeys.secretKey then return some authenticator
    else throw .malformedKey
  else return none

/-! ## What is loaded -/

/-- A key that is read has the size that a Debug build insists on. -/
def WellSized (files : Files) (filename : Bytes) : Prop :=
  Z.ndebug = true ∨ filename = [] ∨ files (cstr filename) = none ∨
    (loadedKey files filename).length = 40

/-- A 40-character word of the file. -/
def Authorized (files : Files) (filename key : Bytes) : Prop :=
  ∃ content, files (cstr filename) = some content ∧
    key.length = 40 ∧ key ∈ content.splitOnP isSpace

variable {Z}

theorem loadServerKey_eq_ok {files : Files} {filename key : Bytes} :
    loadServerKey Z files filename = .ok key ↔
      WellSized Z files filename ∧ key = loadedKey files filename := by
  unfold loadServerKey WellSized
  by_cases named : filename = []
  · rw [if_pos named, loadedKey, if_pos named, Except.ok.injEq, eq_comm]
    simp [named]
  rw [if_neg named]
  cases opened : files (cstr filename) with
  | none =>
      rw [loadedKey_of_unreadable opened, Except.ok.injEq, eq_comm]
      simp
  | some content =>
      rw [loadedKey_of_content named opened]
      by_cases sized : Z.ndebug = true ∨ (firstWord content).length = 40
      · have branch : (Z.ndebug || decide ((firstWord content).length = 40)) = true := by
          simpa using sized
        simp only [branch, if_true, Except.ok.injEq, named, reduceCtorEq, false_or, sized, true_and]
        exact eq_comm
      · have branch : (Z.ndebug || decide ((firstWord content).length = 40)) = false := by
          simpa using sized
        simp [branch, named, sized]

theorem loadClientKeys_eq_ok {files : Files} {filename : Bytes} {keys : List Bytes} :
    loadClientKeys files filename = .ok keys ↔
      (filename = [] ∧ keys = []) ∨ (filename ≠ [] ∧ ∃ content,
        files (cstr filename) = some content ∧
        keys = (words [] content).filter fun key => key.length = 40) := by
  unfold loadClientKeys
  by_cases named : filename = []
  · rw [if_pos named, Except.ok.injEq, eq_comm]
    simp [named]
  rw [if_neg named]
  cases opened : files (cstr filename) with
  | none => simp [named]
  | some content =>
      rw [Except.ok.injEq, eq_comm]
      simp [named]

theorem mem_filter_words {content key : Bytes} :
    key ∈ (words [] content).filter (fun key => key.length = 40) ↔
      key.length = 40 ∧ key ∈ content.splitOnP isSpace := by
  rw [List.mem_filter, decide_eq_true_eq, and_comm]
  refine and_congr_right fun sized => mem_words ?_
  rintro rfl
  cases sized

/-- The authorised clients that were loaded are the keys of the file. -/
theorem mem_loadClientKeys {files : Files} {filename : Bytes} {keys : List Bytes}
    (named : filename ≠ []) (loaded : loadClientKeys files filename = .ok keys) (key : Bytes) :
    key ∈ keys ↔ Authorized files filename key := by
  rcases loadClientKeys_eq_ok.mp loaded with ⟨unnamed, -⟩ | ⟨-, content, opened, rfl⟩
  · exact absurd unnamed named
  · rw [mem_filter_words]
    constructor
    · intro listed
      exact ⟨content, opened, listed⟩
    · rintro ⟨content', opened', listed⟩
      cases opened.symm.trans opened'
      exact listed

/-! ## When nobody else gets in -/

variable (Z) in
/-- A daemon that is given a file of authorised clients comes up with an authenticator that
admits the keys of that file only, or not at all. -/
def FailsClosed (files : Files) (options : List RpcOption) : Prop :=
  (∃ filename, .rpcAuthorizedClientsFile filename ∈ options) →
    ∀ channel, openRpc Z options files = .ok channel →
      ∃ auth, channel = some auth ∧ ∀ key, Z.admits auth key = true →
        Authorized files (RpcOptions.read options).rpcAuthorizedClientsFile key

variable (Z) in
/-- With `--rpc-secure`, a key cannot be loaded, or is malformed, so that no daemon comes up; or
there are both keys of the server and one of a client. -/
structure KeysDecide (files : Files) (o : RpcOptions) : Prop where
  secure : o.rpcSecure = true
  keys : (¬ WellSized Z files o.rpcServerPublicKeyFile ∨
      ¬ WellSized Z files o.rpcServerSecretKeyFile ∨
      (o.rpcAuthorizedClientsFile ≠ [] ∧ files (cstr o.rpcAuthorizedClientsFile) = none)) ∨
    loadedKey files o.rpcServerPublicKeyFile ≠ [] ∧
      loadedKey files o.rpcServerSecretKeyFile ≠ [] ∧
      (Z.accepts .curveSecretKey (loadedKey files o.rpcServerSecretKeyFile) = false ∨
        o.rpcAuthorizedClientsFile ≠ [] ∧
          ∃ key, Authorized files o.rpcAuthorizedClientsFile key)

theorem setupSecurity_eq_ok {o : RpcOptions} {files : Files} {setup : RpcSetup} :
    setupSecurity Z o files = .ok setup ↔
      WellSized Z files o.rpcServerPublicKeyFile ∧ WellSized Z files o.rpcServerSecretKeyFile ∧
        ∃ clients, loadClientKeys files o.rpcAuthorizedClientsFile = .ok clients ∧
          setup = fallback Z o (loadedKey files o.rpcServerPublicKeyFile)
            (loadedKey files o.rpcServerSecretKeyFile) clients := by
  simp only [setupSecurity, bind_eq_ok, loadServerKey_eq_ok, pure_eq_ok]
  constructor
  · rintro ⟨_, ⟨sized, rfl⟩, _, ⟨sized', rfl⟩, clients, loaded, rfl⟩
    exact ⟨sized, sized', clients, loaded, rfl⟩
  · rintro ⟨sized, sized', clients, loaded, rfl⟩
    exact ⟨_, ⟨sized, rfl⟩, _, ⟨sized', rfl⟩, clients, loaded, rfl⟩

theorem openRpc_eq_ok {options : List RpcOption} {files : Files} {channel : Option Z.Auth}
    (accepted : checkOptions (.read options) = .ok ()) :
    openRpc Z options files = .ok channel ↔
      ((RpcOptions.read options).rpcSecure = false ∧ channel = none) ∨
      ((RpcOptions.read options).rpcSecure = true ∧
        ∃ setup, setupSecurity Z (.read options) files = .ok setup ∧
          Z.accepts .curveSecretKey setup.rpcServerKeys.secretKey = true ∧
          channel = some (configureAuthenticator Z setup.rpcAuthorizedClients)) := by
  unfold openRpc
  cases secure : (RpcOptions.read options).rpcSecure with
  | false =>
      simp only [bind_eq_ok, accepted, true_and, exists_const, secure,
        Bool.false_eq_true, if_false, pure_eq_ok, false_and, or_false]
      exact eq_comm
  | true =>
      simp only [bind_eq_ok, accepted, true_and, exists_const, secure, if_true,
        Bool.true_eq_false, false_and, false_or]
      refine exists_congr fun setup => and_congr_right fun _ => ?_
      cases Z.accepts .curveSecretKey setup.rpcServerKeys.secretKey with
      | false => simp [throw, throwThe, MonadExceptOf.throw]
      | true =>
          rw [if_pos rfl, pure_eq_ok, eq_comm]
          simp

/-! ### The two ends of the fallback -/

theorem fallback_open {o : RpcOptions} {publicKey secretKey : Bytes} {clients : List Bytes}
    (missing : secretKey = [] ∨ publicKey = [] ∨ clients = []) :
    (fallback Z o publicKey secretKey clients).rpcAuthorizedClients = [] := by
  unfold fallback
  rw [if_pos missing]
  split <;> rfl

theorem fallback_closed {o : RpcOptions} {publicKey secretKey : Bytes} {clients : List Bytes}
    (given : ¬ (secretKey = [] ∨ publicKey = [] ∨ clients = [])) :
    (fallback Z o publicKey secretKey clients).rpcAuthorizedClients = clients := by
  rw [fallback, if_neg given]

/-- The secret key is the one of the file if both keys are there, and a new one otherwise. -/
theorem fallback_secretKey (o : RpcOptions) (publicKey secretKey : Bytes) (clients : List Bytes) :
    (fallback Z o publicKey secretKey clients).rpcServerKeys.secretKey =
      if secretKey = [] ∨ publicKey = [] then Z.generateKeypair.secretKey else secretKey := by
  unfold fallback
  by_cases missing : secretKey = [] ∨ publicKey = []
  · have some_ : secretKey = [] ∨ publicKey = [] ∨ clients = [] := missing.imp_right .inl
    rw [if_pos some_, if_pos missing, if_pos missing]
  · rw [if_neg missing, if_neg missing]
    split <;> rfl

/-- An empty list lets everybody in. -/
theorem admits_anybody (key : Bytes) : Z.admits (configureAuthenticator Z []) key = true :=
  Z.admits_any key

theorem admits_listed {files : Files} {filename : Bytes} {clients : List Bytes}
    (some_ : clients ≠ []) (keys : ∀ key, key ∈ clients ↔ Authorized files filename key)
    (key : Bytes) (admitted : Z.admits (configureAuthenticator Z clients) key = true) :
    Authorized files filename key := by
  have noWildcard : bytes "CURVE_ALLOW_ANY" ∉ clients := by
    intro member
    obtain ⟨_, -, sized, -⟩ := (keys _).mp member
    cases sized
  rw [configureAuthenticator, if_neg some_, Z.admits_listed clients noWildcard] at admitted
  exact (keys key).mp admitted

/-- The list is empty when the file has no key, or is not named. -/
theorem clients_eq_nil {files : Files} {filename : Bytes} {clients : List Bytes}
    (loaded : loadClientKeys files filename = .ok clients)
    (nobody : ¬ (filename ≠ [] ∧ ∃ key, Authorized files filename key)) : clients = [] := by
  by_cases named : filename = []
  · rcases loadClientKeys_eq_ok.mp loaded with ⟨-, empty⟩ | ⟨named', -⟩
    · exact empty
    · exact absurd named named'
  · refine List.eq_nil_iff_forall_not_mem.mpr fun key member => nobody ⟨named, key, ?_⟩
    exact (mem_loadClientKeys named loaded key).mp member

/-- The list is read unless its file is named and cannot be opened. -/
theorem exists_clients {files : Files} {filename : Bytes}
    (readable : ¬ (filename ≠ [] ∧ files (cstr filename) = none)) :
    ∃ clients, loadClientKeys files filename = .ok clients := by
  unfold loadClientKeys
  by_cases named : filename = []
  · exact ⟨[], if_pos named⟩
  · rw [if_neg named]
    cases opened : files (cstr filename) with
    | none => exact absurd ⟨named, opened⟩ readable
    | some content => exact ⟨_, rfl⟩

/-- With `--rpc-secure` but not the keys, a daemon comes up and lets everybody in. -/
theorem openRpc_anybody {options : List RpcOption} {files : Files}
    (accepted : checkOptions (.read options) = .ok ())
    (secure : (RpcOptions.read options).rpcSecure = true)
    (undecided : ¬ KeysDecide Z files (.read options)) :
    openRpc Z options files = .ok (some (configureAuthenticator Z [])) := by
  have undecided' := fun keys => undecided ⟨secure, keys⟩
  simp only [imp_false, not_or, not_not] at undecided'
  obtain ⟨⟨sized, sized', readable⟩, keyless⟩ := undecided'
  obtain ⟨clients, loaded⟩ := exists_clients readable
  have opens := setupSecurity_eq_ok.mpr ⟨sized, sized', clients, loaded, rfl⟩
  refine (openRpc_eq_ok accepted).mpr (.inr ⟨secure, _, opens, ?_, ?_⟩)
  · rw [fallback_secretKey]
    split
    · exact Z.accepts_secret
    · rename_i both
      by_contra malformed
      obtain ⟨secret, public_⟩ := not_or.mp both
      exact keyless ⟨public_, secret, .inl (by simpa using malformed)⟩
  · rw [fallback_open]
    by_contra all
    simp only [not_or] at all
    obtain ⟨secret, public_, listed⟩ := all
    apply listed
    refine clients_eq_nil loaded ?_
    intro authorized
    exact keyless ⟨public_, secret, .inr authorized⟩

/-- With the keys, a daemon that comes up admits the clients of the file only. -/
theorem KeysDecide.admits {options : List RpcOption} {files : Files} {channel : Option Z.Auth}
    (decided : KeysDecide Z files (.read options))
    (accepted : checkOptions (.read options) = .ok ())
    (started : openRpc Z options files = .ok channel) :
    ∃ auth, channel = some auth ∧ ∀ key, Z.admits auth key = true →
      Authorized files (RpcOptions.read options).rpcAuthorizedClientsFile key := by
  obtain ⟨secure, keys⟩ := decided
  rcases (openRpc_eq_ok accepted).mp started with ⟨clear, -⟩ | ⟨-, setup, done, wellFormed, rfl⟩
  · rw [secure] at clear
    cases clear
  refine ⟨_, rfl, ?_⟩
  obtain ⟨sized, sized', clients, loaded, rfl⟩ := setupSecurity_eq_ok.mp done
  rcases keys with unloadable | ⟨public_, secret, keys⟩
  · rcases unloadable with missized | missized | ⟨named, missing⟩
    · exact absurd sized missized
    · exact absurd sized' missized
    · rcases loadClientKeys_eq_ok.mp loaded with ⟨unnamed, -⟩ | ⟨-, content, opened, -⟩
      · exact absurd unnamed named
      · rw [missing] at opened
        cases opened
  · rw [fallback_secretKey, if_neg (not_or.mpr ⟨secret, public_⟩)] at wellFormed
    rcases keys with malformed | ⟨named, key, authorized⟩
    · rw [malformed] at wellFormed
      cases wellFormed
    · have listed : clients ≠ [] :=
        List.ne_nil_of_mem ((mem_loadClientKeys named loaded key).mpr authorized)
      rw [fallback_closed (by simp only [not_or]; exact ⟨secret, public_, listed⟩)]
      exact admits_listed listed (mem_loadClientKeys named loaded)

/-- No key of a file is empty. -/
theorem not_authorized_nil {files : Files} {filename : Bytes} : ¬ Authorized files filename [] := by
  rintro ⟨_, -, sized, -⟩
  cases sized

/-- **Client authorisation fails closed exactly when the key files decide**: the channel is to be
encrypted, and a key file keeps the daemon from coming up or all three have a key. -/
theorem fails_closed {options : List RpcOption} {files : Files}
    (accepted : checkOptions (.read options) = .ok ()) :
    FailsClosed Z files options ↔
      ((∃ filename, .rpcAuthorizedClientsFile filename ∈ options) →
        KeysDecide Z files (.read options)) := by
  refine forall_congr' fun _ => ?_
  constructor
  · intro closed
    by_contra undecided
    cases secure : (RpcOptions.read options).rpcSecure with
    | false =>
        have started : openRpc Z options files = .ok none :=
          (openRpc_eq_ok accepted).mpr (.inl ⟨secure, rfl⟩)
        obtain ⟨auth, impossible, -⟩ := closed _ started
        cases impossible
    | true =>
        -- who admits everybody admits the empty key, and that is listed nowhere
        obtain ⟨auth, same, only⟩ := closed _ (openRpc_anybody accepted secure undecided)
        cases same
        exact not_authorized_nil (only [] (admits_anybody []))
  · intro decided channel started
    exact decided.admits accepted started

/-! ## Two command lines -/

open Reference in
/-- The keys of the server, and two clients with a line that is no key between them. -/
def keyFiles : Files := fun filename =>
  [(bytes "server.pub", key 97), (bytes "server", key 98 ++ bytes "\n"),
    (bytes "authorized_clients", key 99 ++ bytes "\nnobody\n" ++ key 100 ++ bytes "\n"),
    (bytes "no_clients", bytes "nobody\n")].lookup filename

/-- Encrypted and authenticated. -/
def ironhouse : List RpcOption :=
  [.rpcSecure, .rpcServerPublicKeyFile (bytes "server.pub"),
    .rpcServerSecretKeyFile (bytes "server"), .rpcAuthorizedClientsFile (bytes "authorized_clients")]

open Reference in
/-- It applies to the files that the documentation sets up. -/
theorem fails_closed_ironhouse : FailsClosed (referenceCurve true) keyFiles ironhouse := by
  refine (fails_closed (by decide)).mpr fun _ => ⟨rfl, .inr ⟨by decide, by decide, .inr ?_⟩⟩
  refine ⟨by decide, key 99, _, rfl, by decide, ?_⟩
  exact (mem_words (by decide)).mp (by decide +kernel)

/-- Everybody is admitted although the file has keys in it, if the keys of the server are not
given or cannot be read; and if the file has no key, or its name is empty. -/
theorem fails_open : ¬ FailsClosed (referenceCurve false) keyFiles
      [.rpcSecure, .rpcAuthorizedClientsFile (bytes "authorized_clients")] ∧
    ¬ FailsClosed (referenceCurve false) keyFiles
      [.rpcSecure, .rpcServerPublicKeyFile (bytes "lost.pub"), .rpcServerSecretKeyFile (bytes "server"),
        .rpcAuthorizedClientsFile (bytes "authorized_clients")] ∧
    ¬ FailsClosed (referenceCurve false) keyFiles
      [.rpcSecure, .rpcServerPublicKeyFile (bytes "server.pub"),
        .rpcServerSecretKeyFile (bytes "server"), .rpcAuthorizedClientsFile (bytes "no_clients")] ∧
    ¬ FailsClosed (referenceCurve false) keyFiles [.rpcAuthorizedClientsFile []] := by
  have lets : ∀ options auth, (∃ filename, RpcOption.rpcAuthorizedClientsFile filename ∈ options) →
      openRpc (referenceCurve false) options keyFiles = .ok (some auth) →
      Reference.admits auth [] = true → ¬ FailsClosed (referenceCurve false) keyFiles options := by
    intro options auth given started admitted closed
    obtain ⟨_, same, only⟩ := closed given _ started
    cases same
    exact not_authorized_nil (only [] admitted)
  refine ⟨?_, ?_, ?_, ?_⟩
  · exact lets _ _ ⟨bytes "authorized_clients", by decide⟩ (by rfl) (by rfl)
  · exact lets _ _ ⟨bytes "authorized_clients", by decide⟩ (by rfl) (by rfl)
  · exact lets _ _ ⟨bytes "no_clients", by decide⟩ (by rfl) (by rfl)
  · intro closed
    obtain ⟨_, impossible, -⟩ := closed ⟨_, List.mem_cons_self⟩ none (by rfl)
    cases impossible

end Piac
