/-
# Daemon.Rpc — the db thread when Xapian calls fail

`Daemon.Db` has the database functions with no Xapian call raising an error. Here
every Xapian call has an outcome: it returns, or it raises `Xapian::Error`; one
that changes the database may also have Xapian write to disk before it returns.
The functions are programs over a `World`, which has the outcomes still to come,
and an error leaves with the world as it was at the time; `attempt` is the
`try` block they wrap themselves in and `writable` the scope of a
`WritableDatabase`, whose destructor commits and swallows what that raises.

A reply is a message on the REP socket, so it is part of the world too: that a
request is answered once is a result here (`Daemon.Answering`), not a return
type.
-/
import Piac.Daemon.Request
import Piac.Store.Mirror

namespace Piac

set_option autoImplicit false

open Piac.Theory.CppString Piac.Theory.TermStore

/-- How a Xapian call ends. -/
inductive Outcome where
  | returns
  /-- It returns, and Xapian has written out the changes so far. -/
  | flushes
  | raises
  deriving DecidableEq

/-- What leaves a block before its end. -/
inductive Thrown where
  | xapian
  | fault (f : Fault)
  deriving DecidableEq

/-- What the db thread sees and changes while it handles one message. -/
structure World where
  disk : Database
  /-- What the open `WritableDatabase` holds. -/
  view : Database
  myHashes : List Bytes
  /-- `numins` or `numrm`. -/
  count : Nat
  /-- `docs`, `hashes` or `user`. -/
  items : List Bytes
  outcomes : List Outcome
  replies : List Bytes
  notes : List DbRep
  deriving DecidableEq

/-- A program of the db thread. What it did to the world stays when it throws. -/
abbrev Op := EStateM Thrown World

namespace Rpc

/-! ## Calls, blocks and scopes -/

/-- A Xapian call. With no outcome left it returns. -/
def call : Op Unit := do
  let w ← get
  set { w with outcomes := w.outcomes.tail }
  if w.outcomes.head? = some .raises then throw .xapian

/-- A Xapian call that changes the open database. -/
def change (f : Database → Database) : Op Unit := do
  let flushes := (← get).outcomes.head? = some .flushes
  call
  modify fun w => { w with view := f w.view }
  if flushes then modify fun w => { w with disk := w.view }

def commit : Op Unit := do
  call
  modify fun w => { w with disk := w.view }

/-- A computation that makes no Xapian call. -/
def lift {α : Type} : Except Fault α → Op α
  | .ok a => return a
  | .error f => throw (.fault f)

/-- `try { … } catch ( const Xapian::Error& ) { … }` with a handler that only logs. What a
`return` in the block returns, if it gets to one. -/
def attempt {α : Type} (block : Op (Option α)) : Op (Option α) :=
  tryCatch block fun thrown => match thrown with
    | .xapian => return none
    | .fault f => throw (.fault f)

/-- The destructor of a `WritableDatabase`. -/
def close : Op Unit := tryCatch commit fun _ => return ()

/-- The scope of a `WritableDatabase`, left at its end or by an error. -/
def writable {α : Type} (block : Op α) : Op α := do
  call
  modify fun w => { w with view := w.disk }
  let a ← tryCatch block fun thrown => match thrown with
    | .xapian => do close; throw .xapian
    | .fault f => throw (.fault f)
  close
  return a

variable (X : Platform)

def assert (site : Site) (c : Bool) : Op Unit := lift (X.assert site c)

/-! ## Database functions -/

def getDoccount : Op Nat := do
  let count ← attempt do
    call
    call
    return some (Piac.getDoccount (← get).disk)
  return count.getD 0

/-- The calls on the `Xapian::Document` and on the term generator are one call here. -/
def addDocument (author : Bytes) (ndoc : Document X.Num) : Op Unit := do
  assert X .author (author ≠ [])
  call
  change (replace (hashTerm (X.sha256 (entryOf X author ndoc))) (xapianDoc X author ndoc))

/-- The loop of `index_db`. -/
def indexDocs (author : Bytes) : List (Document X.Num) → Op Unit
  | [] => return ()
  | d :: rest => do
      if X.sha256 (entryOf X author d) ∈ (← get).myHashes then indexDocs author rest
      else do
        addDocument X author { d with author := author }
        modify fun w => { w with count := w.count + 1 }
        indexDocs author rest

/-- The `try` block of `index_db`. -/
def indexContent (author content : Bytes) : Op (Option Unit) := do
  let docs ← lift (Document.deserializeAll X content)
  indexDocs X author docs
  commit
  return none

/-- What `index_db` does with the open database. The stemmer is made before the `try`. -/
def indexInto (author content : Bytes) : Op Bytes := do
  call
  modify fun w => { w with count := 0 }
  let _ ← attempt (indexContent X author content)
  return bytes "Added " ++ stdToString (← get).count ++ bytes " entries"

/-- `index_db`. The database is opened before the `try`. -/
def indexDb (author inputFilename : Bytes) (files : Files) : Op Bytes := do
  assert X .author (author ≠ [])
  match files (cstr inputFilename) with
  | none => return bytes "Cannot open database input file: " ++ inputFilename
  | some content => writable (indexInto X author content)

def dbQuery (cmd : Bytes) : Op Bytes := do
  let result ← attempt do
    call
    call
    return some (X.query (← get).disk cmd)
  return result.getD []

/-- The loop of `db_get_docs`. -/
def getDocs : List Bytes → Op Unit
  | [] => return ()
  | h :: rest => do
      assert X .dbGetDocs (h.length == 32)
      call
      let found := (postings (hashTerm h) (← get).disk).head?.map Doc.data
      modify fun w => { w with items := w.items ++ found.toList }
      getDocs rest

def dbGetDocs (hashes : List Bytes) : Op (List Bytes) := do
  modify fun w => { w with items := [] }
  let early ← attempt do
    call
    call
    if Piac.getDoccount (← get).disk = 0 then return some []
    getDocs X hashes
    return none
  return early.getD (← get).items

/-- The loop of `db_put_docs`. -/
def putDocs : List Bytes → Op Unit
  | [] => return ()
  | d :: rest => do
      match ← lift (Document.deserialize X d) with
      | none => putDocs rest
      | some ndoc =>
          if ndoc.author = [] then putDocs rest
          else do
            addDocument X ndoc.author ndoc
            putDocs rest

/-- What `db_put_docs` does with the open database. -/
def putInto (docs : List Bytes) : Op (Option Unit) := do
  call
  putDocs X docs
  commit
  return none

def dbPutDocs (docs : List Bytes) : Op Unit := do
  let _ ← attempt (writable (putInto X docs))

/-- The loop of `db_rm_docs`; it may return early. -/
def rmDocs (author : Bytes) (hashesToDelete : List Bytes) : List Bytes → Op (Option Bytes)
  | [] => return none
  | h :: rest => do
      assert X .dbRmDocs (h.length == 32)
      call
      match (postings (hashTerm h) (← get).view).head? with
      | none => rmDocs author hashesToDelete rest
      | some doc =>
          if hex h ∈ hashesToDelete then do
            call
            let ndoc ← lift (Document.deserialize X doc.data)
            if author = (ndoc.map Document.author).getD [] then do
              change (delete (hashTerm h))
              modify fun w => { w with count := w.count + 1 }
              rmDocs author hashesToDelete rest
            else return some (bytes "db rm: author != user")
          else rmDocs author hashesToDelete rest

/-- What `db_rm_docs` does with the open database. -/
def rmFrom (author : Bytes) (hashesToDelete : List Bytes) : Op (Option Bytes) := do
  call
  if Piac.getDoccount (← get).view = 0 then return some (bytes "no docs")
  rmDocs X author hashesToDelete (← get).myHashes

def dbRmDocs (author : Bytes) (hashesToDelete : List Bytes) : Op Bytes := do
  modify fun w => { w with count := 0 }
  let early ← attempt (writable (rmFrom X author hashesToDelete))
  return early.getD (bytes "Removed " ++ stdToString (← get).count ++ bytes " entries")

/-- The loop of a listing: `item` of the data of each document. -/
def eachDoc (item : Bytes → Except Fault Bytes) : Database → Op Unit
  | [] => return ()
  | doc :: rest => do
      call
      let entry ← lift (item doc.data)
      modify fun w => { w with items := w.items ++ [entry] }
      eachDoc item rest

/-- What `db_list_hash` and `db_list_doc` have in common. -/
def itemsOf (item : Bytes → Except Fault Bytes) : Op (List Bytes) := do
  modify fun w => { w with items := [] }
  let early ← attempt do
    call
    call
    if Piac.getDoccount (← get).disk = 0 then return some []
    eachDoc item (← get).disk
    return none
  return early.getD (← get).items

def hashItem (inhex : Bool) (entry : Bytes) : Except Fault Bytes :=
  let digest := X.sha256 entry
  .ok (if inhex then hex digest else digest)

/-- As in `Piac.dbListDoc`, an entry that does not parse is a fault. -/
def docItem (entry : Bytes) : Except Fault Bytes := do
  let digest := X.sha256 entry
  match ← Document.deserialize X entry with
  | none => .error .json
  | some d =>
      return hex digest ++ bytes ": " ++ Document.serialize X { d with author := hex d.author }

def userItem (entry : Bytes) : Except Fault Bytes := do
  let d ← Document.deserialize X entry
  return (d.map Document.author).getD []

def dbListHash (inhex : Bool) : Op (List Bytes) := itemsOf (hashItem X inhex)

def dbListDoc : Op (List Bytes) := itemsOf (docItem X)

/-- What is returned after an error is zero, not the number so far. -/
def dbListNumuser : Op Nat := do
  modify fun w => { w with items := [] }
  let size ← attempt do
    call
    call
    if Piac.getDoccount (← get).disk = 0 then return some 0
    eachDoc (userItem X) (← get).disk
    return some (← get).items.dedup.length
  return size.getD 0

def dbAdd (author cmd : Bytes) (files : Files) : Op Bytes := do
  let cmd := trim cmd
  assert X .author (author ≠ [])
  if (bytes "json").isPrefixOf cmd then indexDb X author (cmd.drop 5) files
  else return bytes "unknown cmd"

def dbRm (author cmd : Bytes) : Op Bytes := do
  let cmd := trim cmd
  assert X .author (author ≠ [])
  if cmd ≠ [] then dbRmDocs X author (tokenize cmd)
  else return bytes "unknown cmd"

def dbList (cmd : Bytes) : Op Bytes := do
  let cmd := trim cmd
  if cmd = [] then return listing (← dbListDoc X)
  else if (bytes "numdoc").isPrefixOf cmd then
    return bytes "Number of documents: " ++ stdToString (← getDoccount)
  else if (bytes "numusr").isPrefixOf cmd then
    return bytes "Number of users: " ++ stdToString (← dbListNumuser X)
  else if (bytes "hash").isPrefixOf cmd then return listing (← dbListHash X true)
  else return bytes "unknown cmd"

/-! ## The db thread -/

def dbUpdateHashes : Op Unit := do
  let hashes ← dbListHash X false
  modify fun w => { w with myHashes := hashes.dedup }

/-- `client.send( reply )`. -/
def reply (text : Bytes) : Op Unit :=
  modify fun w => { w with replies := w.replies ++ [text] }

/-- `db_p2p.send( note )`. -/
def note (rep : DbRep) : Op Unit :=
  modify fun w => { w with notes := w.notes ++ [rep] }

def dbClientOp (myPeers : List Bytes) (files : Files) (msg : Bytes) : Op Unit := do
  let (cmd, user) ← lift (extractAuth msg)
  match Request.read cmd with
  | .connect => reply (bytes "accept")
  | .query q => do
      let text ← dbQuery X q
      reply text
  | .add q => do
      assert X .author (user ≠ [])
      let text ← dbAdd X user q files
      dbUpdateHashes X
      note .new
      reply text
  | .rm q => do
      assert X .author (user ≠ [])
      let text ← dbRm X user q
      dbUpdateHashes X
      note .new
      reply text
  | .list q => do
      let text ← dbList X q
      reply text
  | .peers => reply (peersReply myPeers)
  | .unknown => reply (bytes "unknown command")

def dbPeerOp : DbReq → Op Unit
  | .get addr hashes => do
      assert X .get (hashes ≠ [])
      let docs ← dbGetDocs X hashes
      note (.put addr docs)
  | .ins docs => do
      assert X .ins (docs ≠ [])
      let docs := unknownDocs X (← get).myHashes docs
      if docs ≠ [] then
        dbPutDocs X docs
        dbUpdateHashes X
        note .new

end Rpc

/-! ## Sequences of messages -/

/-- The world at the start of a handler. -/
def World.of (s : Store) (outcomes : List Outcome) : World :=
  { disk := s.db, view := [], myHashes := s.myHashes, count := 0, items := [], outcomes,
    replies := [], notes := [] }

def World.store (w : World) : Store := ⟨w.disk, w.myHashes⟩

/-- What the db thread is asked to do, and how the Xapian calls end that it makes for it. -/
structure RpcOp where
  op : DbOp
  outcomes : List Outcome

variable (X : Platform)

def rpcHandler : DbOp → Op Unit
  | .client myPeers files msg => Rpc.dbClientOp X myPeers files msg
  | .peer req => Rpc.dbPeerOp X req

/-- The store after a handler that returns. -/
def rpcStep (s : Store) (op : RpcOp) : Option Store :=
  match (rpcHandler X op.op).run (.of s op.outcomes) with
  | .ok _ w => some w.store
  | .error _ _ => none

end Piac
