/-
# Client.Envelope — what the client sends and what the daemon reads

`send_cmd` puts the user behind a command, as ` AUTH:` and the raw digest of the
address of the wallet; `db_client_op` looks for the last `AUTH:` and takes the
request apart there. Which commands carry a user the client decides by looking for
`add` or `rm` anywhere in the line (`NeedsUser`), the daemon by what stands behind
`db` and one more byte (`Request.read`).

* `envelope_round_trips`: the two halves arrive as they were sent exactly when the
  marker does not occur in what follows it, nor in a command that carries no user;
* `users_agree`: client and daemon agree on who needs a user exactly when the line
  has the word at its place or not at all.
-/
import Piac.Client.Cli
import Piac.Daemon.Request
import Piac.Store.Authorship

namespace Piac

set_option autoImplicit false

open Piac.Theory.CppString

variable {X : Platform}

/-! ## The user on the way -/

/-- What `send_cmd` wants a user for: "db add/rm". -/
def NeedsUser (cmd : Bytes) : Prop :=
  bytes "db" <:+: cmd ∧ (bytes "add" <:+: cmd ∨ bytes "rm" <:+: cmd)

instance (cmd : Bytes) : Decidable (NeedsUser cmd) := inferInstanceAs (Decidable (_ ∧ _))

theorem authored_eq (wallet : Option Bytes) (line : Bytes) : authored X wallet line =
    if NeedsUser (trim line) then
      wallet.map fun address => request (trim line) (X.sha256 address)
    else some (trim line) := by
  unfold authored
  refine if_congr Iff.rfl (congrArg (wallet.map ·) (funext fun address => ?_)) rfl
  rw [request, List.append_assoc]

variable (X) in
/-- What the daemon reads of a line is the command and the digest, or the command
alone if it needs no user. -/
def RoundTrips (wallet : Option Bytes) (line : Bytes) : Prop :=
  ∀ sent, authored X wallet line = some sent → extractAuth sent =
    .ok (trim line, if NeedsUser (trim line) then (wallet.map X.sha256).getD [] else [])

/-- A command without the marker is read as it is. -/
theorem extractAuth_plain {cmd : Bytes} (free : ¬ bytes "AUTH:" <:+: cmd) :
    extractAuth cmd = .ok (cmd, []) := by
  unfold extractAuth
  rw [rfind_eq_none.mpr free]

/-- A command with the marker in it loses what stands from the marker on. -/
theorem extractAuth_cut {cmd user : Bytes} (occurs : bytes "AUTH:" <:+: cmd) :
    extractAuth cmd ≠ .ok (cmd, user) := by
  obtain ⟨x, rest, rfl, free⟩ := exists_last_occurrence (by decide) occurs
  rcases List.eq_nil_or_concat' x with rfl | ⟨head, b, rfl⟩
  · have starts : StartsAuth ([] ++ (bytes "AUTH:" ++ rest)) := rfind_auth free
    rw [extractAuth_eq, if_pos starts]
    intro same
    cases same
  · rw [extractAuth_append b free]
    intro same
    have lengths := congrArg List.length (Prod.mk.inj (Except.ok.inj same)).1
    simp only [List.length_append, List.length_singleton] at lengths
    omega

/-- A request comes apart as it was put together if its digest has no marker in it. -/
theorem extractAuth_request_iff {cmd digest : Bytes} :
    extractAuth (request cmd digest) = .ok (cmd, digest) ↔ ¬ bytes "AUTH:" <:+: digest := by
  refine ⟨fun same => ?_, extractAuth_request⟩
  obtain ⟨rest, taken, -⟩ := exists_rest digest
  rw [taken cmd] at same
  exact presented_eq_self.mp (Prod.mk.inj (Except.ok.inj same)).2

/-- **Command and digest arrive as they were sent exactly when the marker occurs neither in the
digest nor in a command that is sent without one**: for each wallet and each line. -/
theorem envelope_round_trips (wallet : Option Bytes) (line : Bytes) : RoundTrips X wallet line ↔
    if NeedsUser (trim line) then ∀ address ∈ wallet, ¬ bytes "AUTH:" <:+: X.sha256 address
    else ¬ bytes "AUTH:" <:+: trim line := by
  unfold RoundTrips
  rw [authored_eq]
  by_cases user : NeedsUser (trim line)
  · simp only [if_pos user]
    cases wallet with
    | none => simp
    | some address =>
        simp only [Option.map_some, Option.some.injEq, forall_eq', Option.getD_some,
          Option.mem_some_iff]
        exact extractAuth_request_iff
  · simp only [if_neg user, Option.some.injEq, forall_eq']
    exact ⟨fun same occurs => extractAuth_cut occurs same, extractAuth_plain⟩

/-- A search for the marker itself. -/
theorem marker_cuts : ¬ ∀ (wallet : Option Bytes) (line : Bytes),
    CliCommand.read line = .db → RoundTrips (reference false) wallet line := by
  intro all
  have same : trim (bytes "db query AUTH:x") = bytes "db query AUTH:x" := by decide
  have lost := all none (bytes "db query AUTH:x") (by decide) (bytes "db query AUTH:x")
    (by rw [authored_eq, if_neg (by decide), same])
  rw [same] at lost
  exact extractAuth_cut (by decide) lost

/-! ## Who needs a user -/

variable (X) in
/-- Without a wallet nothing is sent, and with one the user goes along. -/
def RequiresUser (line : Bytes) : Prop :=
  authored X none line = none ∧
    ∀ address, authored X (some address) line = some (request (trim line) (X.sha256 address))

/-- The daemon hands the command on to `db_add` or `db_rm`. -/
def Request.ForUser : Request → Prop
  | .add _ | .rm _ => True
  | _ => False

instance : DecidablePred Request.ForUser := fun request => by
  cases request <;> unfold Request.ForUser <;> infer_instance

theorem requiresUser_iff {line : Bytes} : RequiresUser X line ↔ NeedsUser (trim line) := by
  unfold RequiresUser
  rw [authored_eq]
  by_cases user : NeedsUser (trim line)
  · simp only [authored_eq, if_pos user]
    simp [user]
  · simp [user]

/-- The word at the place where the daemon looks for it. -/
def WordInPlace (cmd : Bytes) : Prop :=
  bytes "add" <+: cmd.drop 3 ∨ bytes "rm" <+: cmd.drop 3

instance (cmd : Bytes) : Decidable (WordInPlace cmd) := inferInstanceAs (Decidable (_ ∨ _))

theorem forUser_iff {cmd : Bytes} (db : bytes "db" <+: cmd) :
    (Request.read cmd).ForUser ↔ WordInPlace cmd := by
  obtain ⟨rest, rfl⟩ := db
  have connect : bytes "db" ++ rest ≠ bytes "connect" := by
    intro same
    have heads := congrArg List.head? same
    simp only [show bytes "db" = 100 :: bytes "b" by decide, List.cons_append, List.head?_cons,
      show (bytes "connect").head? = some 99 by decide] at heads
    cases heads
  have prefix_ : (bytes "db").isPrefixOf (bytes "db" ++ rest) = true :=
    List.isPrefixOf_iff_prefix.mpr (List.prefix_append _ _)
  unfold Request.read WordInPlace
  rw [if_neg connect, if_pos prefix_]
  simp only [← List.isPrefixOf_iff_prefix]
  -- two of the words at one place would have one first letter
  have apart : ∀ {a b : UInt8} {s t q : Bytes}, a ≠ b → (a :: s).isPrefixOf q = true →
      ¬ (b :: t).isPrefixOf q = true := by
    intro a b s t q other one two
    cases q with
    | nil => cases one
    | cons c q =>
        simp only [List.isPrefixOf, Bool.and_eq_true, beq_iff_eq] at one two
        exact other (one.1.trans two.1.symm)
  by_cases query : (bytes "query").isPrefixOf ((bytes "db" ++ rest).drop 3) = true
  · rw [if_pos query]
    have noAdd := @apart 113 97 _ (bytes "dd") _ (by decide) query
    have noRm := @apart 113 114 _ (bytes "m") _ (by decide) query
    exact iff_of_false id (not_or.mpr ⟨noAdd, noRm⟩)
  rw [if_neg query]
  by_cases add : (bytes "add").isPrefixOf ((bytes "db" ++ rest).drop 3) = true
  · rw [if_pos add]
    exact iff_of_true trivial (.inl add)
  rw [if_neg add]
  by_cases rm : (bytes "rm").isPrefixOf ((bytes "db" ++ rest).drop 3) = true
  · rw [if_pos rm]
    exact iff_of_true trivial (.inr rm)
  rw [if_neg rm]
  refine iff_of_false ?_ (not_or.mpr ⟨add, rm⟩)
  split <;> exact id

/-- A line that the client forwards as a `db` line still starts with `db` when trimmed. -/
theorem db_prefix_trim {line : Bytes} (db : CliCommand.read line = .db) :
    bytes "db" <+: trim line := by
  have starts : bytes "db" <+: line := by
    by_contra other
    rw [← List.isPrefixOf_iff_prefix] at other
    unfold CliCommand.read at db
    rw [if_neg other] at db
    split_ifs at db
  obtain ⟨rest, rfl⟩ := starts
  have front : (bytes "db" ++ rest).dropWhile isSpace = bytes "db" ++ rest :=
    List.dropWhile_cons_of_neg (by decide)
  rw [trim, front, List.reverse_append, List.dropWhile_append]
  split
  · exact (List.prefix_refl (bytes "db"))
  · rw [List.reverse_append, List.reverse_reverse]
    exact List.prefix_append _ _

/-- **Client and daemon agree on who needs a user exactly when `add` and `rm` are not in the line,
or one of them stands where the daemon looks for it.** -/
theorem users_agree {line : Bytes} (db : CliCommand.read line = .db) :
    (RequiresUser X line ↔ (Request.read (trim line)).ForUser) ↔
      ¬ (bytes "add" <:+: trim line ∨ bytes "rm" <:+: trim line) ∨ WordInPlace (trim line) := by
  have starts := db_prefix_trim db
  rw [requiresUser_iff, forUser_iff starts]
  have needs : NeedsUser (trim line) ↔
      (bytes "add" <:+: trim line ∨ bytes "rm" <:+: trim line) :=
    and_iff_right starts.isInfix
  have inside : WordInPlace (trim line) →
      (bytes "add" <:+: trim line ∨ bytes "rm" <:+: trim line) :=
    Or.imp (fun h => h.isInfix.trans (List.drop_suffix _ _).isInfix)
      (fun h => h.isInfix.trans (List.drop_suffix _ _).isInfix)
  rw [needs]
  by_cases place : WordInPlace (trim line)
  · simp only [place, inside place, or_true]
  · simp only [place, iff_false, or_false]

/-- It applies to a command that adds a file. -/
theorem users_agree_add : RequiresUser (reference false) (bytes "db add json ad.json") ↔
    (Request.read (trim (bytes "db add json ad.json"))).ForUser :=
  (users_agree (by decide)).mpr (.inr (by decide))

/-- A search for a word that contains `add`. -/
theorem search_needs_user : ¬ ∀ line : Bytes, CliCommand.read line = .db →
    (RequiresUser (reference false) line ↔ (Request.read (trim line)).ForUser) := by
  intro all
  have agrees := all (bytes "db query ladder") (by decide)
  rw [requiresUser_iff] at agrees
  revert agrees
  decide

end Piac
