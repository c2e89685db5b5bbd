/-
# Daemon.Platform — what the daemon is built against

The libraries the daemon calls are not part of the repository. `Platform` collects
the functions of theirs that the daemon relies on, each with the documented
behaviour the development uses:

* Crypto++ SHA-256, whose digests have 32 bytes;
* the rapidjson reader and writer: an object of integers, numbers and strings is
  read back member by member, strings exactly and numbers up to what the
  default number parser makes of the printed digits (`reread`); the text is not
  empty and has no zero byte, control characters being escaped;
* the Xapian term generator: a term is the prefix followed by a lower-case word,
  or the stemming mark and such a word, so it starts with `Q` only under a
  prefix that does;
* which endpoints ZeroMQ accepts for a connection.

`ndebug` is the build type: a Release build compiles `assert` out.
`Fault` lists what ends the process: an uncaught exception or a failed assertion.
-/
import Piac.Theory.CppString
import Piac.Theory.Json
import Piac.Theory.TermStore

namespace Piac

set_option autoImplicit false

open Piac.Theory.CppString Piac.Theory.Json

/-- A Xapian database: data and terms of each document, by document id. -/
abbrev Database := List (Piac.Theory.TermStore.Doc Bytes Bytes)

structure Platform where
  ndebug : Bool
  sha256 : Bytes → Bytes
  sha256_length : ∀ msg, (sha256 msg).length = 32
  /-- The finite `double`s. -/
  Num : Type
  ofInt : Int → Num
  parse : Bytes → Option (Value Num)
  write : Value Num → Bytes
  reread : Num → Num
  parse_write : ∀ members : List (Bytes × Value Num), (∀ m ∈ members, m.2.Scalar) →
    parse (write (.obj members)) = some (.obj (members.map fun m => (m.1, m.2.mapNum reread)))
  write_ne_nil : ∀ v, write v ≠ []
  zero_notMem_write : ∀ v, 0 ∉ write v
  indexText : Bytes → Bytes → List Bytes
  indexText_head : ∀ pre text t, t ∈ indexText pre text → pre.head? ≠ some 81 →
    t.head? ≠ some 81
  query : Database → Bytes → Bytes
  connectable : Bytes → Bool

/-- The `assert`s of the daemon threads: `author` stands for each `not
author.empty()` and `not user.empty()`, the rest for the function or branch they
guard. -/
inductive Site where
  | author
  | dbGetDocs
  | dbRmDocs
  | req
  | doc
  | put
  | get
  | ins
  deriving DecidableEq, Repr

/-- What ends the process: nothing in the two threads catches these. -/
inductive Fault where
  /-- `std::unordered_map::at` on a missing key. -/
  | mapAt
  /-- `std::string::erase` past the end. -/
  | stringErase
  | stoul (error : StoulError)
  /-- `zmqpp::message >>` past the last frame. -/
  | pastLastFrame
  /-- `zmqpp::socket::connect` on a malformed endpoint. -/
  | endpoint
  | assertion (site : Site)
  /-- A rapidjson assertion: missing member or wrong type. -/
  | json
  deriving DecidableEq, Repr

variable (X : Platform)

/-- `assert( c )`. -/
def Platform.assert (site : Site) (c : Bool) : Except Fault Unit :=
  if X.ndebug || c then .ok () else .error (.assertion site)

variable {X}

theorem Platform.assert_eq_ok {site : Site} {c : Bool} {u : Unit} :
    X.assert site c = .ok u ↔ X.ndebug = true ∨ c = true := by
  unfold Platform.assert
  cases X.ndebug <;> cases c <;> simp

theorem Platform.assert_eq_error {site : Site} {c : Bool} {f : Fault} :
    X.assert site c = .error f ↔ (X.ndebug = false ∧ c = false) ∧ f = .assertion site := by
  unfold Platform.assert
  cases X.ndebug <;> cases c <;> simp
  exact eq_comm

/-- A computation that may end the process gave a result when each of its parts did. -/
theorem bind_eq_ok {ε α β : Type} {x : Except ε α} {f : α → Except ε β} {b : β} :
    x >>= f = .ok b ↔ ∃ a, x = .ok a ∧ f a = .ok b := by
  cases x <;> simp [bind, Except.bind]

theorem bind_eq_error {ε α β : Type} {x : Except ε α} {f : α → Except ε β} {e : ε} :
    x >>= f = .error e ↔ x = .error e ∨ ∃ a, x = .ok a ∧ f a = .error e := by
  cases x <;> simp [bind, Except.bind]

@[simp] theorem pure_eq_ok {ε α : Type} {a b : α} :
    (pure a : Except ε α) = .ok b ↔ a = b := by
  simp [pure, Except.pure]

end Piac
