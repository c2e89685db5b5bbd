/-
# Daemon.Db — the database functions

The functions of `db.cpp` over a `Database`, with no Xapian call raising an
error. A document is stored under the term `'Q' + sha256( entry )`, where the
entry is the JSON text of the ad with its author set; both ways in (`index_db`
for a client's file, `db_put_docs` for a peer's entries) go through
`add_document`.

`my_hashes` and the sets of hashes are lists; the order of such a list is the
order in which the unordered container is walked.
-/
import Piac.Daemon.Document
import Piac.Daemon.StringUtil

namespace Piac

set_option autoImplicit false

open Piac.Theory.CppString Piac.Theory.TermStore

variable (X : Platform)

/-- The files a client command may name: the content, or `none` if the file cannot
be opened. -/
abbrev Files := Bytes → Option Bytes

/-- The term a document with that hash is stored under. -/
def hashTerm (hash : Bytes) : Bytes := 81 :: hash

def getDoccount (db : Database) : Nat := db.length

/-- The terms `add_document` indexes a document by, the hash term apart. -/
def indexTerms (ndoc : Document X.Num) : List Bytes :=
  X.indexText (bytes "S") ndoc.title ++
  X.indexText (bytes "XD") ndoc.description ++
  X.indexText (bytes "XC") ndoc.category ++
  X.indexText (bytes "XO") ndoc.condition ++
  X.indexText (bytes "XS") ndoc.shipping ++
  X.indexText (bytes "XF") ndoc.format ++
  X.indexText (bytes "XL") ndoc.location ++
  X.indexText (bytes "K") ndoc.keywords ++
  X.indexText [] ndoc.title ++
  X.indexText [] ndoc.description ++
  X.indexText [] ndoc.category ++
  X.indexText [] ndoc.condition ++
  X.indexText [] ndoc.shipping ++
  X.indexText [] ndoc.format ++
  X.indexText [] ndoc.location ++
  X.indexText [] ndoc.keywords ++
  [intToString ndoc.id.toInt]

/-- The entry of an ad: its text once the author is set. -/
def entryOf (author : Bytes) (ndoc : Document X.Num) : Bytes :=
  Document.serialize X { ndoc with author := author }

/-- The `Xapian::Document` that `add_document` builds. -/
def xapianDoc (author : Bytes) (ndoc : Document X.Num) : Doc Bytes Bytes :=
  { data := entryOf X author ndoc
    terms := indexTerms X ndoc ++ [hashTerm (X.sha256 (entryOf X author ndoc))] }

def addDocument (author : Bytes) (db : Database) (ndoc : Document X.Num) :
    Except Fault (Database × Bytes) := do
  X.assert .author (author ≠ [])
  let sha := X.sha256 (entryOf X author ndoc)
  return (replace (hashTerm sha) (xapianDoc X author ndoc) db, sha)

/-- The loop of `index_db` over the documents of a file, with the count so far. -/
def indexDocs (author : Bytes) (myHashes : List Bytes) :
    Database → Nat → List (Document X.Num) → Except Fault (Database × Nat)
  | db, numins, [] => .ok (db, numins)
  | db, numins, d :: rest =>
      if X.sha256 (entryOf X author d) ∈ myHashes then indexDocs author myHashes db numins rest
      else do
        let (db, _) ← addDocument X author db { d with author := author }
        indexDocs author myHashes db (numins + 1) rest

def indexDb (author : Bytes) (db : Database) (inputFilename : Bytes) (files : Files)
    (myHashes : List Bytes) : Except Fault (Database × Bytes) := do
  X.assert .author (author ≠ [])
  match files (cstr inputFilename) with
  | none => return (db, bytes "Cannot open database input file: " ++ inputFilename)
  | some content =>
      let docs ← Document.deserializeAll X content
      let (db, numins) ← indexDocs X author myHashes db 0 docs
      return (db, bytes "Added " ++ stdToString numins ++ bytes " entries")

def dbQuery (db : Database) (cmd : Bytes) : Bytes := X.query db cmd

/-- The loop of `db_get_docs`: the data of the first document under each hash. -/
def getDocs (db : Database) : List Bytes → Except Fault (List Bytes)
  | [] => .ok []
  | h :: rest => do
      X.assert .dbGetDocs (h.length == 32)
      let found := (postings (hashTerm h) db).head?.map Doc.data
      let docs ← getDocs db rest
      return found.toList ++ docs

def dbGetDocs (db : Database) (hashes : List Bytes) : Except Fault (List Bytes) :=
  if getDoccount db = 0 then .ok [] else getDocs X db hashes

/-- `db_put_docs`, without the count it returns and nobody reads. An entry that
does not parse leaves the fresh document with an empty author, so it is refused
like one without author. -/
def dbPutDocs : Database → List Bytes → Except Fault Database
  | db, [] => .ok db
  | db, d :: rest => do
      match ← Document.deserialize X d with
      | none => dbPutDocs db rest
      | some ndoc =>
          if ndoc.author = [] then dbPutDocs db rest
          else do
            let (db, _) ← addDocument X ndoc.author db ndoc
            dbPutDocs db rest

/-- The loop of `db_rm_docs` over `my_hashes`, with the number removed so far. The
early return keeps what was deleted before it. -/
def rmDocs (author : Bytes) (hashesToDelete : List Bytes) :
    Database → Nat → List Bytes → Except Fault (Database × Bytes)
  | db, numrm, [] => .ok (db, bytes "Removed " ++ stdToString numrm ++ bytes " entries")
  | db, numrm, h :: rest => do
      X.assert .dbRmDocs (h.length == 32)
      match (postings (hashTerm h) db).head? with
      | none => rmDocs author hashesToDelete db numrm rest
      | some doc =>
          if hex h ∈ hashesToDelete then do
            let ndoc ← Document.deserialize X doc.data
            if author = (ndoc.map Document.author).getD [] then
              rmDocs author hashesToDelete (delete (hashTerm h) db) (numrm + 1) rest
            else return (db, bytes "db rm: author != user")
          else rmDocs author hashesToDelete db numrm rest

def dbRmDocs (author : Bytes) (db : Database) (hashesToDelete myHashes : List Bytes) :
    Except Fault (Database × Bytes) :=
  if getDoccount db = 0 then .ok (db, bytes "no docs")
  else rmDocs X author hashesToDelete db 0 myHashes

def dbListHash (db : Database) (inhex : Bool) : List Bytes :=
  db.map fun doc =>
    let digest := X.sha256 doc.data
    if inhex then hex digest else digest

/-- `db_list_doc`. Every stored entry was written by `Document::serialize`, so the
parse error the source does not look at is a fault here. -/
def dbListDoc (db : Database) : Except Fault (List Bytes) :=
  db.mapM fun doc => do
    let digest := X.sha256 doc.data
    match ← Document.deserialize X doc.data with
    | none => .error .json
    | some d =>
        return hex digest ++ bytes ": " ++ Document.serialize X { d with author := hex d.author }

def dbListNumuser (db : Database) : Except Fault Nat := do
  let users ← db.mapM fun doc => do
    let d ← Document.deserialize X doc.data
    return (d.map Document.author).getD []
  return users.dedup.length

def dbAdd (author : Bytes) (db : Database) (cmd : Bytes) (files : Files) (myHashes : List Bytes) :
    Except Fault (Database × Bytes) := do
  let cmd := trim cmd
  X.assert .author (author ≠ [])
  if (bytes "json").isPrefixOf cmd then indexDb X author db (cmd.drop 5) files myHashes
  else return (db, bytes "unknown cmd")

def dbRm (author : Bytes) (db : Database) (cmd : Bytes) (myHashes : List Bytes) :
    Except Fault (Database × Bytes) := do
  let cmd := trim cmd
  X.assert .author (author ≠ [])
  if cmd ≠ [] then dbRmDocs X author db (tokenize cmd) myHashes
  else return (db, bytes "unknown cmd")

/-- A listing: the count, then one line each, without the last newline. -/
def listing (items : List Bytes) : Bytes :=
  (bytes "Number of documents: " ++ stdToString items.length ++ bytes "\n" ++
    items.flatMap fun d => d ++ bytes "\n").dropLast

def dbList (db : Database) (cmd : Bytes) : Except Fault Bytes := do
  let cmd := trim cmd
  if cmd = [] then return listing (← dbListDoc X db)
  else if (bytes "numdoc").isPrefixOf cmd then
    return bytes "Number of documents: " ++ stdToString (getDoccount db)
  else if (bytes "numusr").isPrefixOf cmd then
    return bytes "Number of users: " ++ stdToString (← dbListNumuser X db)
  else if (bytes "hash").isPrefixOf cmd then return listing (dbListHash X db true)
  else return bytes "unknown cmd"

end Piac
