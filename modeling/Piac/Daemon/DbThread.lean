/-
# Daemon.DbThread — the database thread

The two handlers of `db_thread`: `dbClientOp` for a request on the REP socket and
`dbPeerOp` for a message of the p2p thread on the inproc pair. The thread owns
the database and rebuilds `my_hashes` from it after every change
(`dbUpdateHashes`).

A client request is a byte string. What it does to the store is one of three
things (`dbClientOp_effect`): nothing, an add of documents under a user, or a
removal under a user; `ClientCmd` names the last two with their arguments read.
-/
import Piac.Daemon.Db

namespace Piac

set_option autoImplicit false

open Piac.Theory.CppString Piac.Theory.TermStore

variable (X : Platform)

/-- What the db thread works on: the database and the set of its hashes that both
threads share. -/
structure Store where
  db : Database
  myHashes : List Bytes
  deriving DecidableEq

/-- A message of the p2p thread to the db thread. -/
inductive DbReq where
  | get (addr : Bytes) (hashes : List Bytes)
  | ins (docs : List Bytes)
  deriving DecidableEq

/-- A message of the db thread to the p2p thread. -/
inductive DbRep where
  | put (addr : Bytes) (docs : List Bytes)
  | new
  deriving DecidableEq

def dbUpdateHashes (s : Store) : Store :=
  { s with myHashes := (dbListHash X s.db false).dedup }

/-! ## Client requests -/

/-- The user and the command of a client request: the text after the last `AUTH:`,
and what stands before the byte in front of it. -/
def extractAuth (cmd : Bytes) : Except Fault (Bytes × Bytes) :=
  match rfind (bytes "AUTH:") cmd with
  | none => .ok (cmd, [])
  | some 0 => .error .stringErase
  | some (u + 1) => .ok (cmd.take u, cmd.drop (u + 6))

/-- `db_client_op` on the first frame of a request: the store after it, the reply,
and the notes to the p2p thread. -/
def dbClientOp (myPeers : List Bytes) (files : Files) (s : Store) (msg : Bytes) :
    Except Fault (Store × Bytes × List DbRep) := do
  let (cmd, user) ← extractAuth msg
  if cmd = bytes "connect" then return (s, bytes "accept", [])
  else if (bytes "db").isPrefixOf cmd then
    let q := cmd.drop 3
    if (bytes "query").isPrefixOf q then return (s, dbQuery X s.db (q.drop 6), [])
    else if (bytes "add").isPrefixOf q then
      X.assert .author (user ≠ [])
      let (db, reply) ← dbAdd X user s.db (q.drop 4) files s.myHashes
      return (dbUpdateHashes X { s with db }, reply, [.new])
    else if (bytes "rm").isPrefixOf q then
      X.assert .author (user ≠ [])
      let (db, reply) ← dbRm X user s.db (q.drop 3) s.myHashes
      return (dbUpdateHashes X { s with db }, reply, [.new])
    else if (bytes "list").isPrefixOf q then
      let reply ← dbList X s.db (q.drop 5)
      return (s, reply, [])
    else return (s, bytes "unknown command", [])
  else if cmd = bytes "peers" then
    if myPeers ≠ [] then return (s, myPeers.flatMap fun addr => addr ++ bytes " ", [])
    else return (s, bytes "No peers", [])
  else return (s, bytes "unknown command", [])

/-- A client request that changes the store, with its arguments read: the documents
of the file, or the tokens of the command. -/
inductive ClientCmd where
  | add (author : Bytes) (docs : List (Document X.Num))
  | rm (author : Bytes) (hashes : List Bytes)

def ClientCmd.author : ClientCmd X → Bytes
  | .add author _ => author
  | .rm author _ => author

/-- What `db_client_op` does for such a request. -/
def clientOp (s : Store) : ClientCmd X → Except Fault (Store × List DbRep)
  | .add author docs => do
      X.assert .author (author ≠ [])
      let (db, _) ← indexDocs X author s.myHashes s.db 0 docs
      return (dbUpdateHashes X { s with db }, [.new])
  | .rm author hashes => do
      X.assert .author (author ≠ [])
      let (db, _) ← dbRmDocs X author s.db hashes s.myHashes
      return (dbUpdateHashes X { s with db }, [.new])

/-! ## Requests of the p2p thread -/

/-- The entries whose hash is not in `my_hashes`. -/
def unknownDocs (myHashes docs : List Bytes) : List Bytes :=
  docs.filter fun doc => decide (X.sha256 doc ∉ myHashes)

/-- `db_peer_op`: the store after it and what it sends back. -/
def dbPeerOp (s : Store) : DbReq → Except Fault (Store × List DbRep)
  | .get addr hashes => do
      X.assert .get (hashes ≠ [])
      let docs ← dbGetDocs X s.db hashes
      return (s, [.put addr docs])
  | .ins docs => do
      X.assert .ins (docs ≠ [])
      let docs := unknownDocs X s.myHashes docs
      if docs = [] then return (s, [])
      else
        let db ← dbPutDocs X s.db docs
        return (dbUpdateHashes X { s with db }, [.new])

/-! ## What a client request does to the store -/

variable {X}

theorem dbAdd_effect {author cmd reply : Bytes} {db db' : Database} {files : Files}
    {myHashes : List Bytes} (done : dbAdd X author db cmd files myHashes = .ok (db', reply)) :
    ∃ docs numins, X.assert .author (author ≠ []) = .ok () ∧
      indexDocs X author myHashes db 0 docs = .ok (db', numins) := by
  simp only [dbAdd, bind_eq_ok] at done
  obtain ⟨⟨⟩, named, done⟩ := done
  split at done
  · simp only [indexDb, bind_eq_ok] at done
    obtain ⟨⟨⟩, -, done⟩ := done
    split at done
    · cases done
      exact ⟨[], 0, named, rfl⟩
    · simp only [bind_eq_ok] at done
      obtain ⟨docs, -, ⟨db₁, numins⟩, indexed, done⟩ := done
      cases done
      exact ⟨docs, numins, named, indexed⟩
  · cases done
    exact ⟨[], 0, named, rfl⟩

/-- A request that may change the store is followed by one note. -/
theorem clientOp_notes {s s' : Store} {cmd : ClientCmd X} {notes : List DbRep}
    (done : clientOp X s cmd = .ok (s', notes)) : notes = [.new] := by
  cases cmd with
  | add author docs =>
      simp only [clientOp, bind_eq_ok] at done
      obtain ⟨⟨⟩, -, ⟨db, numins⟩, -, shape⟩ := done
      cases shape
      rfl
  | rm author toDelete =>
      simp only [clientOp, bind_eq_ok] at done
      obtain ⟨⟨⟩, -, ⟨db, reply⟩, -, shape⟩ := done
      cases shape
      rfl

/-- **A client request leaves the store alone, adds documents or removes some**, and
it sends a note exactly in the last two cases. -/
theorem dbClientOp_effect {myPeers : List Bytes} {files : Files} {s s' : Store}
    {msg reply : Bytes} {notes : List DbRep}
    (done : dbClientOp X myPeers files s msg = .ok (s', reply, notes)) :
    (s' = s ∧ notes = []) ∨ ∃ cmd : ClientCmd X, clientOp X s cmd = .ok (s', notes) := by
  simp only [dbClientOp, bind_eq_ok] at done
  obtain ⟨⟨cmd, user⟩, -, done⟩ := done
  dsimp only at done
  split at done
  · cases done; exact .inl ⟨rfl, rfl⟩
  split at done
  · split at done
    · cases done; exact .inl ⟨rfl, rfl⟩
    split at done
    · simp only [bind_eq_ok] at done
      obtain ⟨⟨⟩, -, ⟨db, reply'⟩, added, done⟩ := done
      obtain ⟨docs, numins, named, indexed⟩ := dbAdd_effect added
      cases done
      refine .inr ⟨.add user docs, ?_⟩
      simp only [clientOp, bind_eq_ok]
      exact ⟨(), named, (db, numins), indexed, rfl⟩
    split at done
    · simp only [bind_eq_ok] at done
      obtain ⟨⟨⟩, named, ⟨db, reply'⟩, removed, done⟩ := done
      cases done
      simp only [dbRm, bind_eq_ok] at removed
      obtain ⟨⟨⟩, -, removed⟩ := removed
      split at removed
      · refine .inr ⟨.rm user (tokenize (trim ((cmd.drop 3).drop 3))), ?_⟩
        simp only [clientOp, bind_eq_ok]
        exact ⟨(), named, (db, _), removed, rfl⟩
      · -- an empty command touches nothing, as an add of nothing does
        cases removed
        refine .inr ⟨.add user [], ?_⟩
        simp only [clientOp, bind_eq_ok]
        exact ⟨(), named, (s.db, 0), rfl, rfl⟩
    split at done
    · simp only [bind_eq_ok] at done
      obtain ⟨_, -, done⟩ := done
      cases done; exact .inl ⟨rfl, rfl⟩
    · cases done; exact .inl ⟨rfl, rfl⟩
  split at done
  · split at done <;> (cases done; exact .inl ⟨rfl, rfl⟩)
  · cases done; exact .inl ⟨rfl, rfl⟩

end Piac