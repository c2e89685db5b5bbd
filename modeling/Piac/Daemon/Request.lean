/-
# Daemon.Request — what a request asks for

`db_client_op` cuts the user off the end of a request and takes a branch by the first
bytes of what is left. `commandOf` and `userOf` are the two parts, `Request.read`
is the branch, and `dbClientOp_eq` says that the handler is the one followed by the
other.

With a `db add` of a file the branch submits documents under the user
(`Request.submits`); `dbClientOp_steps` gives what a request does to the store in these
terms, branch by branch.
-/
import Piac.Daemon.DbThread

namespace Piac

set_option autoImplicit false

open Piac.Theory.CppString

/-! ## The user -/

/-- What stands before the byte in front of the last `AUTH:`. -/
def commandOf (msg : Bytes) : Bytes :=
  match rfind (bytes "AUTH:") msg with
  | none => msg
  | some u => msg.take (u - 1)

/-- What stands after the last `AUTH:`. -/
def userOf (msg : Bytes) : Bytes :=
  match rfind (bytes "AUTH:") msg with
  | none => []
  | some u => msg.drop (u + 5)

/-- The last `AUTH:` is at the start, where no byte stands in front of it. -/
def StartsAuth (msg : Bytes) : Prop := rfind (bytes "AUTH:") msg = some 0

instance (msg : Bytes) : Decidable (StartsAuth msg) := inferInstanceAs (Decidable (_ = _))

theorem extractAuth_eq (msg : Bytes) : extractAuth msg =
    if StartsAuth msg then .error .stringErase else .ok (commandOf msg, userOf msg) := by
  unfold extractAuth commandOf userOf
  cases found : rfind (bytes "AUTH:") msg with
  | none => exact (if_neg (by simp [StartsAuth, found])).symm
  | some u =>
      cases u with
      | zero => exact (if_pos found).symm
      | succ u => exact (if_neg (by simp [StartsAuth, found])).symm

theorem extractAuth_ok {msg cmd user : Bytes} (extracted : extractAuth msg = .ok (cmd, user)) :
    ¬ StartsAuth msg ∧ cmd = commandOf msg ∧ user = userOf msg := by
  rw [extractAuth_eq] at extracted
  split at extracted
  · cases extracted
  · rename_i later
    cases extracted
    exact ⟨later, rfl, rfl⟩

/-! ## The branch -/

/-- The branches of `db_client_op`, each with what it hands on. -/
inductive Request where
  | connect
  | query (q : Bytes)
  | add (q : Bytes)
  | rm (q : Bytes)
  | list (q : Bytes)
  | peers
  | unknown
  deriving DecidableEq

def Request.read (cmd : Bytes) : Request :=
  if cmd = bytes "connect" then .connect
  else if (bytes "db").isPrefixOf cmd then
    let q := cmd.drop 3
    if (bytes "query").isPrefixOf q then .query (q.drop 6)
    else if (bytes "add").isPrefixOf q then .add (q.drop 4)
    else if (bytes "rm").isPrefixOf q then .rm (q.drop 3)
    else if (bytes "list").isPrefixOf q then .list (q.drop 5)
    else .unknown
  else if cmd = bytes "peers" then .peers
  else .unknown

/-- The reply to `peers`. -/
def peersReply (myPeers : List Bytes) : Bytes :=
  if myPeers ≠ [] then myPeers.flatMap fun addr => addr ++ bytes " " else bytes "No peers"

variable (X : Platform)

/-- One branch of `db_client_op`. -/
def dbClientBranch (myPeers : List Bytes) (files : Files) (s : Store) (user : Bytes) :
    Request → Except Fault (Store × Bytes × List DbRep)
  | .connect => .ok (s, bytes "accept", [])
  | .query q => .ok (s, dbQuery X s.db q, [])
  | .add q => do
      X.assert .author (user ≠ [])
      let (db, reply) ← dbAdd X user s.db q files s.myHashes
      return (dbUpdateHashes X { s with db }, reply, [.new])
  | .rm q => do
      X.assert .author (user ≠ [])
      let (db, reply) ← dbRm X user s.db q s.myHashes
      return (dbUpdateHashes X { s with db }, reply, [.new])
  | .list q => do
      let reply ← dbList X s.db q
      return (s, reply, [])
  | .peers => .ok (s, peersReply myPeers, [])
  | .unknown => .ok (s, bytes "unknown command", [])

variable {X}

/-- **The handler is the reading of the request followed by one branch.** -/
theorem dbClientOp_eq (myPeers : List Bytes) (files : Files) (s : Store) (msg : Bytes) :
    dbClientOp X myPeers files s msg =
      if StartsAuth msg then .error .stringErase
      else dbClientBranch X myPeers files s (userOf msg) (Request.read (commandOf msg)) := by
  unfold dbClientOp
  rw [extractAuth_eq]
  by_cases starts : StartsAuth msg
  · rw [if_pos starts, if_pos starts]
    rfl
  rw [if_neg starts, if_neg starts]
  show (if commandOf msg = bytes "connect" then _ else _) = _
  unfold Request.read
  by_cases connect : commandOf msg = bytes "connect"
  · rw [if_pos connect, if_pos connect]
    rfl
  rw [if_neg connect, if_neg connect]
  by_cases db : (bytes "db").isPrefixOf (commandOf msg) = true
  · rw [if_pos db, if_pos db]
    dsimp only
    by_cases query : (bytes "query").isPrefixOf ((commandOf msg).drop 3) = true
    · rw [if_pos query, if_pos query]; rfl
    rw [if_neg query, if_neg query]
    by_cases add : (bytes "add").isPrefixOf ((commandOf msg).drop 3) = true
    · rw [if_pos add, if_pos add]; rfl
    rw [if_neg add, if_neg add]
    by_cases rm : (bytes "rm").isPrefixOf ((commandOf msg).drop 3) = true
    · rw [if_pos rm, if_pos rm]; rfl
    rw [if_neg rm, if_neg rm]
    by_cases list : (bytes "list").isPrefixOf ((commandOf msg).drop 3) = true
    · rw [if_pos list, if_pos list]; rfl
    rw [if_neg list, if_neg list]
    rfl
  rw [if_neg db, if_neg db]
  by_cases peers : commandOf msg = bytes "peers"
  · rw [if_pos peers, if_pos peers]
    dsimp only [dbClientBranch, peersReply]
    split <;> rfl
  · rw [if_neg peers, if_neg peers]
    rfl

/-! ## What is submitted -/

/-- The file a `db add` names. -/
def addedFile (q : Bytes) : Option Bytes :=
  if (bytes "json").isPrefixOf (trim q) then some ((trim q).drop 5) else none

/-- The content of the file that a request has read, if it is a `db add` of a file that can be
opened. -/
def Request.content (files : Files) : Request → Option Bytes
  | .add q => (addedFile q).bind fun name => files (cstr name)
  | _ => none

variable (X) in
/-- The documents a request submits. -/
def Request.submits (files : Files) (request : Request) : List (Document X.Num) :=
  match (request.content files).map (Document.deserializeAll X) with
  | some (.ok docs) => docs
  | _ => []

theorem dbAdd_submits {author q reply : Bytes} {db db' : Database} {files : Files}
    {myHashes : List Bytes} (done : dbAdd X author db q files myHashes = .ok (db', reply)) :
    ∃ numins, indexDocs X author myHashes db 0 ((Request.add q).submits X files) =
      .ok (db', numins) := by
  simp only [dbAdd, bind_eq_ok] at done
  obtain ⟨⟨⟩, -, done⟩ := done
  split at done
  · rename_i json
    simp only [indexDb, bind_eq_ok] at done
    obtain ⟨⟨⟩, -, done⟩ := done
    have file : addedFile q = some ((trim q).drop 5) := if_pos json
    split at done
    · rename_i missing
      cases done
      refine ⟨0, ?_⟩
      simp only [Request.submits, Request.content, file, Option.bind_some, missing]
      rfl
    · rename_i content opened
      simp only [bind_eq_ok] at done
      obtain ⟨docs, read, ⟨db₁, numins⟩, indexed, done⟩ := done
      cases done
      refine ⟨numins, ?_⟩
      simpa only [Request.submits, Request.content, file, Option.bind_some, opened,
        Option.map_some, read] using indexed
  · rename_i other
    cases done
    have file : addedFile q = none := if_neg other
    refine ⟨0, ?_⟩
    simp only [Request.submits, Request.content, file]
    rfl

/-- **What a request does to the store**: it adds the documents it submits under its user, it
removes under its user, or it leaves the store alone. -/
theorem dbClientOp_steps {myPeers : List Bytes} {files : Files} {s s' : Store}
    {msg reply : Bytes} {notes : List DbRep}
    (done : dbClientOp X myPeers files s msg = .ok (s', reply, notes)) :
    (s' = s ∧ notes = []) ∨
      clientOp X s (.add (userOf msg) ((Request.read (commandOf msg)).submits X files)) =
        .ok (s', notes) ∨
      ∃ toDelete, clientOp X s (.rm (userOf msg) toDelete) = .ok (s', notes) := by
  rw [dbClientOp_eq] at done
  split at done
  · cases done
  generalize Request.read (commandOf msg) = request at done ⊢
  cases request with
  | add q =>
      right; left
      simp only [dbClientBranch, bind_eq_ok] at done
      obtain ⟨⟨⟩, named, ⟨db, reply'⟩, added, done⟩ := done
      cases done
      obtain ⟨numins, indexed⟩ := dbAdd_submits added
      simp only [clientOp, bind_eq_ok]
      exact ⟨(), named, (db, numins), indexed, rfl⟩
  | rm q =>
      right
      simp only [dbClientBranch, dbRm, bind_eq_ok] at done
      obtain ⟨⟨⟩, named, ⟨db, reply'⟩, ⟨⟨⟩, -, removed⟩, done⟩ := done
      cases done
      split at removed
      · right
        refine ⟨tokenize (trim q), ?_⟩
        simp only [clientOp, bind_eq_ok]
        exact ⟨(), named, (db, _), removed, rfl⟩
      · -- an empty command touches nothing, as an add of nothing does
        left
        cases removed
        simp only [clientOp, bind_eq_ok]
        exact ⟨(), named, (s.db, 0), rfl, rfl⟩
  | list q =>
      left
      simp only [dbClientBranch, bind_eq_ok] at done
      obtain ⟨_, -, done⟩ := done
      cases done
      exact ⟨rfl, rfl⟩
  | connect => left; cases done; exact ⟨rfl, rfl⟩
  | query q => left; cases done; exact ⟨rfl, rfl⟩
  | peers => left; cases done; exact ⟨rfl, rfl⟩
  | unknown => left; cases done; exact ⟨rfl, rfl⟩

end Piac
