/-
# Daemon.Curve — the CURVE mechanism of the RPC channel

Clients reach the daemon over a channel that ZeroMQ can encrypt. `Curve` collects
what the daemon and the client use of it, each with its documented behaviour:

* `zmqpp::socket::connect` throws on a malformed endpoint, and `set` of a key on a
  malformed key, which leaves the option as it was;
* `zmqpp::curve::generate_keypair` makes keys that are well-formed;
* an authenticator that was configured with `CURVE_ALLOW_ANY` admits every client,
  and one that was configured with a list of keys admits the clients that have one
  of them.

Keys come from files, as words (`loadedKey`).
-/
import Piac.Daemon.Db
import Piac.Daemon.Reference

namespace Piac

set_option autoImplicit false

open Piac.Theory.CppString

/-- `zmqpp::curve::keypair`. -/
structure Keypair where
  publicKey : Bytes
  secretKey : Bytes
  deriving DecidableEq

/-- The socket options that take a key. -/
inductive CurveOption where
  | curveServerKey
  | curvePublicKey
  | curveSecretKey
  deriving DecidableEq

structure Curve where
  ndebug : Bool
  /-- `socket::connect` to this host and port returns. -/
  connects : Bytes → Bool
  /-- `socket::set` returns. -/
  accepts : CurveOption → Bytes → Bool
  generateKeypair : Keypair
  accepts_public : accepts .curvePublicKey generateKeypair.publicKey = true
  accepts_secret : accepts .curveSecretKey generateKeypair.secretKey = true
  /-- `zmqpp::auth` with the domain and the address that `db_thread` gives it. -/
  Auth : Type
  authenticator : Auth
  configureCurve : Auth → Bytes → Auth
  /-- A client with this public key gets through. -/
  admits : Auth → Bytes → Bool
  admits_any : ∀ key,
    admits (configureCurve authenticator (bytes "CURVE_ALLOW_ANY")) key = true
  admits_listed : ∀ keys : List Bytes, bytes "CURVE_ALLOW_ANY" ∉ keys → ∀ key,
    admits (keys.foldl configureCurve authenticator) key = true ↔ key ∈ keys

/-! ## Key files -/

/-- The key that a file starts with, empty if there is no such file. -/
def loadedKey (files : Files) (filename : Bytes) : Bytes :=
  if filename = [] then [] else ((files (cstr filename)).map firstWord).getD []

theorem loadedKey_of_content {files : Files} {filename content : Bytes} (named : filename ≠ [])
    (opened : files (cstr filename) = some content) :
    loadedKey files filename = firstWord content := by
  rw [loadedKey, if_neg named, opened]
  rfl

theorem loadedKey_of_unreadable {files : Files} {filename : Bytes}
    (missing : files (cstr filename) = none) : loadedKey files filename = [] := by
  rw [loadedKey, missing]
  exact ite_self _

/-! ## Keys to run the channel on -/

namespace Reference

/-- The characters of a key. -/
def z85 : Bytes :=
  bytes ("0123456789abcdefghijklmnopqrstuvwxyzABCDEFGHIJKLMNOPQRSTUVWXYZ.-:+=^!/*?&<>()[]" ++
    "\x7b\x7d@%$#")

def isKey (key : Bytes) : Bool := key.length == 40 && key.all (· ∈ z85)

/-- Forty times the same character. -/
def key (b : UInt8) : Bytes := List.replicate 40 b

/-- What an authenticator was configured with: a key of a list, or any. -/
def admits (keys : List Bytes) (key : Bytes) : Bool :=
  bytes "CURVE_ALLOW_ANY" ∈ keys || key ∈ keys

end Reference

open Reference in
/-- The channel with well-formed keys taken as ZeroMQ takes them. -/
def referenceCurve (ndebug : Bool) : Curve where
  ndebug
  connects := connectable
  accepts _ := isKey
  generateKeypair := ⟨key 48, key 49⟩
  accepts_public := by decide +kernel
  accepts_secret := by decide +kernel
  Auth := List Bytes
  authenticator := []
  configureCurve keys key := keys ++ [key]
  admits
  admits_any _ := by simp [admits]
  admits_listed keys closed key := by
    have listed : ∀ keys' : List Bytes,
        keys.foldl (fun keys key => keys ++ [key]) keys' = keys' ++ keys := by
      induction keys with
      | nil => simp
      | cons first rest ih =>
          intro keys'
          have closed' := fun member => closed (List.mem_cons_of_mem first member)
          rw [List.foldl_cons, ih closed', List.append_assoc]
          rfl
    rw [listed]
    simp [admits, closed]

end Piac
