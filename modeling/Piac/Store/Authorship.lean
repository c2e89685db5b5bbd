/-
# Store.Authorship — who can remove an ad

The author of an ad is the user of the request that added it, and `db_rm_docs` lets
the author remove it: it compares the user of the `db rm` with the author that is read
from the stored entry. On the way into the entry and out of it the author passes
through C strings, and on the way into the daemon the user is what stands after the last
`AUTH:` of the request (`presented`). So an ad that was added by the digest `a` can be
removed by whoever presents a text that ends in `cstr (presented a)` behind its last
`AUTH:`, or is that text. `author_removes` says for which digest and which user this is the
right answer (`Recognised`).
-/
import Piac.Store.Board

namespace Piac

set_option autoImplicit false

open Piac.Theory.CppString Piac.Theory.TermStore Piac.Theory.Transition Piac.Theory.Board

variable {X : Platform}

/-! ## The user of a request -/

theorem rfind_auth {user : Bytes} (free : ¬ bytes "AUTH:" <:+: user) :
    rfind (bytes "AUTH:") (bytes "AUTH:" ++ user) = some 0 := by
  have none_ : rfind [65, 85, 84, 72, 58] user = none := rfind_eq_none.mpr free
  show rfind [65, 85, 84, 72, 58] (65 :: 85 :: 84 :: 72 :: 58 :: user) = some 0
  simp [rfind, none_]

/-- The byte in front of the last `AUTH:` goes too. -/
theorem extractAuth_append {head user : Bytes} (b : UInt8) (free : ¬ bytes "AUTH:" <:+: user) :
    extractAuth (head ++ [b] ++ (bytes "AUTH:" ++ user)) = .ok (head, user) := by
  have found := rfind_append (head ++ [b]) (rfind_auth free)
  rw [List.length_append, List.length_singleton] at found
  unfold extractAuth
  rw [found]
  have take_ : (head ++ [b] ++ (bytes "AUTH:" ++ user)).take head.length = head := by
    rw [List.append_assoc, List.take_left]
  have drop_ : (head ++ [b] ++ (bytes "AUTH:" ++ user)).drop (head.length + 6) = user := by
    have shape : head ++ [b] ++ (bytes "AUTH:" ++ user) = (head ++ [b] ++ bytes "AUTH:") ++ user := by
      simp [List.append_assoc]
    have length : head.length + 6 = (head ++ [b] ++ bytes "AUTH:").length := by
      simp only [List.length_append, List.length_singleton]
      rfl
    rw [shape, length, List.drop_left]
  exact congrArg Except.ok (Prod.ext take_ drop_)

/-- The request of a client: the command, a blank, and the digest. -/
def request (cmd digest : Bytes) : Bytes := cmd ++ (bytes " AUTH:" ++ digest)

theorem extractAuth_request {cmd digest : Bytes} (free : ¬ bytes "AUTH:" <:+: digest) :
    extractAuth (request cmd digest) = .ok (cmd, digest) := by
  have shape : request cmd digest = cmd ++ [32] ++ (bytes "AUTH:" ++ digest) := by
    have blank : bytes " AUTH:" = [32] ++ bytes "AUTH:" := by decide
    rw [request, blank]
    simp [List.append_assoc]
  rw [shape, extractAuth_append 32 free]

/-- What the daemon takes for the user of a request. -/
def presented (user : Bytes) : Bytes := userOf (request [] user)

/-- A text with the marker in it is taken apart at the last one, and what stands before that goes
to the command. -/
theorem extractAuth_marked {x user : Bytes} (free : ¬ bytes "AUTH:" <:+: user) (cmd : Bytes) :
    extractAuth (request cmd (x ++ (bytes "AUTH:" ++ user))) =
      .ok (cmd ++ (bytes " AUTH:" ++ x).dropLast, user) := by
  have pos : bytes " AUTH:" ++ x ≠ [] := by
    have : bytes " AUTH:" ≠ [] := by decide
    simp [this]
  have shape : request cmd (x ++ (bytes "AUTH:" ++ user)) =
      cmd ++ (bytes " AUTH:" ++ x).dropLast ++ [(bytes " AUTH:" ++ x).getLast pos] ++
        (bytes "AUTH:" ++ user) := by
    rw [List.append_assoc cmd, List.dropLast_append_getLast pos, request]
    simp [List.append_assoc]
  rw [shape, extractAuth_append _ free]

theorem presented_of_extractAuth {user cmd taken : Bytes}
    (extracted : extractAuth (request [] user) = .ok (cmd, taken)) : presented user = taken :=
  (extractAuth_ok extracted).2.2.symm

theorem presented_marked {x user : Bytes} (free : ¬ bytes "AUTH:" <:+: user) :
    presented (x ++ (bytes "AUTH:" ++ user)) = user :=
  presented_of_extractAuth (extractAuth_marked free [])

theorem presented_plain {user : Bytes} (free : ¬ bytes "AUTH:" <:+: user) : presented user = user :=
  presented_of_extractAuth (extractAuth_request free)

/-- What the daemon takes for the user is all of it exactly if it has no marker in it. -/
theorem presented_eq_self {user : Bytes} : presented user = user ↔ ¬ bytes "AUTH:" <:+: user := by
  refine ⟨fun same occurs => ?_, presented_plain⟩
  obtain ⟨x, rest, rfl, free⟩ := exists_last_occurrence (by decide) occurs
  have lengths := congrArg List.length same
  rw [presented_marked free] at lengths
  have : (bytes "AUTH:").length = 5 := by decide
  simp only [List.length_append] at lengths
  omega

/-- **How a request comes apart**: what stands before the last marker of the user goes to the
command, behind a blank. -/
theorem exists_rest (user : Bytes) : ∃ rest,
    (∀ cmd, extractAuth (request cmd user) = .ok (cmd ++ rest, presented user)) ∧
      (∀ b ∈ rest.head?, isSpace b = true) ∧ rest.length ≤ user.length := by
  by_cases occurs : bytes "AUTH:" <:+: user
  · obtain ⟨x, rest, rfl, free⟩ := exists_last_occurrence (by decide) occurs
    refine ⟨(bytes " AUTH:" ++ x).dropLast, fun cmd => ?_, ?_, ?_⟩
    · rw [extractAuth_marked free, presented_marked free]
    · have front : bytes " AUTH:" ++ x = 32 :: 65 :: (bytes "UTH:" ++ x) := rfl
      rw [front, List.dropLast_cons_cons]
      rintro b ⟨⟩
      rfl
    · have lengths : (bytes " AUTH:").length = 6 ∧ (bytes "AUTH:").length = 5 := by decide
      simp only [List.length_dropLast, List.length_append]
      omega
  · refine ⟨[], fun cmd => ?_, by simp, Nat.zero_le _⟩
    rw [List.append_nil, extractAuth_request occurs, presented_plain occurs]

variable (X) in
/-- The assertions on the user let it pass. -/
def Named (user : Bytes) : Prop := X.ndebug = true ∨ user ≠ []

instance (user : Bytes) : Decidable (Named X user) := inferInstanceAs (Decidable (_ ∨ _))

theorem assert_named {user : Bytes} : X.assert .author (user ≠ []) = .ok () ↔ Named X user := by
  rw [Platform.assert_eq_ok, decide_eq_true_eq, Named]

/-! ## One removal -/

section Removal

variable {s s' : Store} {user : Bytes} {toDelete : List Bytes} {notes : List DbRep}

/-- A removal is one visit to the board. -/
theorem clientOp_rm_serves (mirrors : Mirrors X s)
    (done : clientOp X s (.rm user toDelete) = .ok (s', notes)) :
    ∃ answer, Serves (keyOf X) (authorOf X) (.withdraw user {k | k ∈ toDelete}) (entries s.db)
      answer (entries s'.db) := by
  simp only [clientOp, bind_eq_ok] at done
  obtain ⟨⟨⟩, -, ⟨db, reply⟩, removed, done⟩ := done
  cases done
  obtain ⟨answer, serves, -⟩ := dbRmDocs_serves mirrors removed
  exact ⟨answer, serves⟩

/-- Nobody takes out what is somebody else's. -/
theorem entry_kept (mirrors : Mirrors X s) (done : clientOp X s (.rm user toDelete) = .ok (s', notes))
    {entry : Bytes} (stored : entry ∈ entries s.db) (foreign : user ≠ authorOf X entry) :
    entry ∈ entries s'.db := by
  obtain ⟨answer, serves⟩ := clientOp_rm_serves mirrors done
  refine serves.kept stored fun keys asked => ?_
  cases asked
  exact absurd rfl foreign

/-- Who asks for nothing but his own takes out what he asks for. -/
theorem entry_taken (mirrors : Mirrors X s) (done : clientOp X s (.rm user toDelete) = .ok (s', notes))
    (own : Own (keyOf X) (authorOf X) user {k | k ∈ toDelete} (entries s.db)) (entry : Bytes) :
    entry ∈ entries s'.db ↔ entry ∈ entries s.db ∧ keyOf X entry ∉ toDelete := by
  obtain ⟨answer, serves⟩ := clientOp_rm_serves mirrors done
  exact serves.withdrawn own

end Removal

/-- The command that asks for the removal of one hash. -/
def rmCommand (hash : Bytes) : Bytes := bytes "db rm " ++ hex hash

/-- What it asks to remove, with more behind it. -/
def rmTokens (hash rest : Bytes) : List Bytes := tokenize (trim (hex hash ++ rest))

/-- The request deletes the hash: it returns, and the hash is gone. -/
def Deletes (X : Platform) (myPeers : List Bytes) (files : Files) (s : Store) (msg hash : Bytes) :
    Prop :=
  ∃ s' reply notes, dbClientOp X myPeers files s msg = .ok (s', reply, notes) ∧
    hash ∉ hashes X s'.db

theorem hash_ne_nil (entry : Bytes) : X.sha256 entry ≠ [] := by
  have length := X.sha256_length entry
  rintro empty
  rw [empty] at length
  cases length

theorem mem_hashes_iff_entries {db : Database} {hash : Bytes} :
    hash ∈ hashes X db ↔ ∃ entry ∈ entries db, X.sha256 entry = hash := by
  rw [mem_hashes]
  constructor
  · rintro ⟨doc, stored, same⟩
    exact ⟨doc.data, ⟨doc, stored, rfl⟩, same⟩
  · rintro ⟨_, ⟨doc, stored, rfl⟩, same⟩
    exact ⟨doc, stored, same⟩

section Request

variable {myPeers : List Bytes} {files : Files} {s : Store} {msg hash rest user : Bytes}

theorem read_rmCommand (hash rest : Bytes) :
    Request.read (rmCommand hash ++ rest) = .rm (hex hash ++ rest) := by
  have notConnect : ¬ rmCommand hash ++ rest = bytes "connect" := by
    rw [show rmCommand hash ++ rest = 100 :: 98 :: 32 :: 114 :: 109 :: 32 :: (hex hash ++ rest) from rfl,
      show bytes "connect" = [99, 111, 110, 110, 101, 99, 116] from rfl]
    exact fun same => absurd (List.cons.inj same).1 (by decide)
  unfold Request.read
  rw [if_neg notConnect]
  rfl

/-- What a `db rm` of one hash does, whatever stands behind it. -/
theorem deletes_iff_clientOp (extracted : extractAuth msg = .ok (rmCommand hash ++ rest, user))
    (pos : hash ≠ []) (blank : ∀ b ∈ rest.head?, isSpace b = true) :
    Deletes X myPeers files s msg hash ↔
      ∃ s', clientOp X s (.rm user (rmTokens hash rest)) = .ok (s', [.new]) ∧ hash ∉ hashes X s'.db := by
  obtain ⟨later, command, rfl⟩ := extractAuth_ok extracted
  have some_ : trim (hex hash ++ rest) ≠ [] := by
    intro empty
    have token := (tokenize_trim_hex_append pos blank).1
    rw [empty] at token
    cases token
  simp only [Deletes, dbClientOp_eq, if_neg later, ← command, read_rmCommand, dbClientBranch, dbRm,
    clientOp, rmTokens, bind_eq_ok, if_pos some_, pure_eq_ok, Prod.mk.injEq]
  constructor
  · rintro ⟨s', reply, notes, ⟨⟨⟩, named, ⟨db, said⟩, ⟨⟨⟩, -, removed⟩, rfl, rfl, rfl⟩, gone⟩
    exact ⟨_, ⟨(), named, (db, said), removed, rfl, trivial⟩, gone⟩
  · rintro ⟨s', ⟨⟨⟩, named, ⟨db, said⟩, removed, rfl, -⟩, gone⟩
    exact ⟨_, said, _, ⟨(), named, (db, said), ⟨(), named, removed⟩, rfl, rfl, rfl⟩, gone⟩

variable {entry : Bytes}

/-- **Nobody but the author deletes the ad**, whatever stands behind its hash. -/
theorem author_of_deletes (mirrors : Mirrors X s) (stored : entry ∈ entries s.db)
    (extracted : extractAuth msg = .ok (rmCommand (X.sha256 entry) ++ rest, user))
    (blank : ∀ b ∈ rest.head?, isSpace b = true)
    (gone : Deletes X myPeers files s msg (X.sha256 entry)) :
    Named X user ∧ user = authorOf X entry := by
  obtain ⟨s', done, gone⟩ := (deletes_iff_clientOp extracted (hash_ne_nil entry) blank).mp gone
  constructor
  · simp only [clientOp, bind_eq_ok] at done
    obtain ⟨⟨⟩, passed, -⟩ := done
    exact assert_named.mp passed
  · by_contra foreign
    exact gone (mem_hashes_iff_entries.mpr ⟨entry, entry_kept mirrors done stored foreign, rfl⟩)

/-- **The author deletes the ad**, if nothing behind its hash asks for somebody else's. -/
theorem deletes (mirrors : Mirrors X s) (extracted : extractAuth msg =
      .ok (rmCommand (X.sha256 entry) ++ rest, user))
    (blank : ∀ b ∈ rest.head?, isSpace b = true) (named : Named X user)
    (own : Own (keyOf X) (authorOf X) user {k | k ∈ rmTokens (X.sha256 entry) rest} (entries s.db)) :
    Deletes X myPeers files s msg (X.sha256 entry) := by
  rw [deletes_iff_clientOp extracted (hash_ne_nil entry) blank]
  cases done : clientOp X s (.rm user (rmTokens (X.sha256 entry) rest)) with
  | error fault =>
      obtain ⟨debug, unnamed, -⟩ := clientOp_error mirrors done
      rcases named with release | named
      · rw [release] at debug
        cases debug
      · exact absurd unnamed named
  | ok result =>
      obtain ⟨s', notes⟩ := result
      cases clientOp_notes done
      refine ⟨s', rfl, fun still => ?_⟩
      obtain ⟨other, left, same⟩ := mem_hashes_iff_entries.mp still
      refine ((entry_taken mirrors done own other).mp left).2 ?_
      rw [keyOf, same]
      exact (tokenize_trim_hex_append (hash_ne_nil entry) blank).1

/-- **A stored ad is deleted exactly by what is read back as its author**, if what stands behind
its hash asks for no other. -/
theorem deletes_iff (mirrors : Mirrors X s) (stored : entry ∈ entries s.db)
    (extracted : extractAuth msg = .ok (rmCommand (X.sha256 entry) ++ rest, user))
    (blank : ∀ b ∈ rest.head?, isSpace b = true)
    (others : ∀ e ∈ entries s.db, keyOf X e ∈ rmTokens (X.sha256 entry) rest → e = entry) :
    Deletes X myPeers files s msg (X.sha256 entry) ↔ Named X user ∧ user = authorOf X entry := by
  refine ⟨author_of_deletes mirrors stored extracted blank, ?_⟩
  rintro ⟨named, rfl⟩
  refine deletes mirrors extracted blank named fun e inDb asked => ?_
  rw [others e inDb asked]

end Request

/-! ## Adding one ad -/

/-- The entry was stored by a `db add` of that digest in some reachable state, and has
been there up to `s`. -/
structure AddedBy (X : Platform) (digest entry : Bytes) (s : Store) : Prop where
  history : ∃ (ops ops' : List DbOp) (s₀ s₁ : Store) (myPeers : List Bytes) (files : Files)
    (cmd reply : Bytes) (notes : List DbRep),
    DbRun X ⟨[], []⟩ ops s₀ ∧ bytes "db add" <+: cmd ∧
      dbClientOp X myPeers files s₀ (request cmd digest) = .ok (s₁, reply, notes) ∧
      (∃ doc ∈ s₁.db, doc.data = entry) ∧ X.sha256 entry ∉ hashes X s₀.db ∧
      DbRun X s₁ ops' s
  still : ∃ doc ∈ s.db, doc.data = entry

/-- A `db add` adds under the user of the request, who has a name in a Debug build. -/
theorem dbClientOp_add_data {myPeers : List Bytes} {files : Files} {s s' : Store}
    {msg cmd user reply : Bytes} {notes : List DbRep} (mirrors : Mirrors X s)
    (extracted : extractAuth msg = .ok (cmd, user)) (adds : bytes "db add" <+: cmd)
    (done : dbClientOp X myPeers files s msg = .ok (s', reply, notes)) :
    Named X user ∧ ∀ doc ∈ s'.db,
      (∃ old ∈ s.db, old.data = doc.data) ∨ ∃ d, doc.data = entryOf X user d := by
  obtain ⟨rest, rfl⟩ := adds
  have command : bytes "db add" ++ rest = 100 :: 98 :: 32 :: 97 :: 100 :: 100 :: rest := rfl
  have notConnect : ¬ bytes "db add" ++ rest = bytes "connect" := by
    rw [command, show bytes "connect" = [99, 111, 110, 110, 101, 99, 116] from rfl]
    exact fun same => absurd (List.cons.inj same).1 (by decide)
  have db : (bytes "db").isPrefixOf (bytes "db add" ++ rest) = true := rfl
  have drop_ : (bytes "db add" ++ rest).drop 3 = 97 :: 100 :: 100 :: rest := rfl
  have query : (bytes "query").isPrefixOf (97 :: 100 :: 100 :: rest) = false := rfl
  have add : (bytes "add").isPrefixOf (97 :: 100 :: 100 :: rest) = true := rfl
  simp only [dbClientOp, extracted, bind_eq_ok, Except.ok.injEq, exists_eq_left', if_neg notConnect,
    db, if_true, drop_, query, add, Bool.false_eq_true, if_false] at done
  obtain ⟨⟨⟩, asserted, ⟨db', reply'⟩, added, shape⟩ := done
  cases shape
  obtain ⟨docs, numins, -, indexed⟩ := dbAdd_effect added
  refine ⟨assert_named.mp asserted, fun doc member => ?_⟩
  rcases indexDocs_data mirrors.well indexed member with old | ⟨d, -, same⟩
  · exact .inl old
  · exact .inr ⟨d, same⟩

/-- What is read back from an entry that was added under a user. -/
theorem deserialize_entryOf (user : Bytes) (d : Document X.Num) :
    ∃ ad, Document.deserialize X (entryOf X user d) = .ok (some ad) ∧ ad.author = cstr user :=
  ⟨_, Document.deserialize_serialize _, rfl⟩

theorem authorOf_entryOf (user : Bytes) (d : Document X.Num) :
    authorOf X (entryOf X user d) = cstr user := by
  obtain ⟨ad, read, author⟩ := deserialize_entryOf (X := X) user d
  rw [authorOf, read]
  exact author

/-- An ad with nothing in it. -/
def blankAd (X : Platform) : Document X.Num where
  id := 0
  title := []
  author := []
  description := []
  price := X.ofInt 0
  category := []
  condition := []
  shipping := []
  format := []
  location := []
  keywords := []

theorem deserializeAll_serialize (d : Document X.Num) :
    Document.deserializeAll X (Document.serialize X d) = .ok [Document.stored X d] := by
  simp only [Document.deserializeAll, Document.initDocument_serialize, Document.reread]
  rw [← Document.reread, Document.ofValue_reread]
  rfl

theorem trim_json (rest : Bytes) : (bytes "json").isPrefixOf (trim (bytes "json f" ++ rest)) = true := by
  have front : (bytes "json f" ++ rest).dropWhile isSpace = bytes "json f" ++ rest := rfl
  have kept : [102, 32, 110, 111, 115, 106].dropWhile isSpace = [102, 32, 110, 111, 115, 106] := rfl
  have back : (bytes "json f").reverse = [102, 32, 110, 111, 115, 106] := rfl
  unfold trim
  rw [front, List.reverse_append, back, List.dropWhile_append]
  split
  · rw [kept]
    rfl
  · rw [List.reverse_append]
    rfl

/-- A user that passes can add an ad as the only one, and its author is what is left of the user. -/
theorem exists_addedBy {digest rest user : Bytes} (named : Named X user)
    (extracted : ∀ cmd, extractAuth (request cmd digest) = .ok (cmd ++ rest, user)) :
    ∃ (d : Document X.Num) (s : Store), Mirrors X s ∧ AddedBy X digest (entryOf X user d) s ∧
      ∀ entry ∈ entries s.db, entry = entryOf X user d := by
  let d : Document X.Num := Document.stored X (blankAd X)
  let doc := xapianDoc X user d
  have asserted : X.assert .author (user ≠ []) = .ok () := assert_named.mpr named
  have indexed : indexDocs X user [] [] 0 [d] = .ok ([doc], 1) := by
    simp only [indexDocs, List.not_mem_nil, if_false, addDocument, asserted]
    rfl
  have db : (bytes "db").isPrefixOf (bytes "db add json f" ++ rest) = true := rfl
  have drop_ : (bytes "db add json f" ++ rest).drop 3 = 97 :: 100 :: 100 :: 32 :: (bytes "json f" ++ rest) :=
    rfl
  have query : (bytes "query").isPrefixOf (97 :: 100 :: 100 :: 32 :: (bytes "json f" ++ rest)) = false := rfl
  have add : (bytes "add").isPrefixOf (97 :: 100 :: 100 :: 32 :: (bytes "json f" ++ rest)) = true := rfl
  have notConnect : ¬ bytes "db add json f" ++ rest = bytes "connect" := by
    intro same
    rw [show bytes "connect" = [99, 111, 110, 110, 101, 99, 116] from rfl] at same
    exact absurd (List.cons.inj same).1 (by decide)
  have added : dbAdd X user [] (bytes "json f" ++ rest) (fun _ => some (Document.serialize X (blankAd X)))
      [] = .ok ([doc], bytes "Added " ++ stdToString 1 ++ bytes " entries") := by
    simp only [dbAdd, asserted, trim_json, if_true, indexDb, deserializeAll_serialize]
    show (indexDocs X user [] [] 0 [d] >>= _) = _
    rw [indexed]
    rfl
  have done : dbClientOp X [] (fun _ => some (Document.serialize X (blankAd X))) ⟨[], []⟩
      (request (bytes "db add json f") digest) =
        .ok (dbUpdateHashes X ⟨[doc], []⟩, bytes "Added " ++ stdToString 1 ++ bytes " entries", [.new]) := by
    simp only [dbClientOp, extracted, bind_eq_ok, Except.ok.injEq, exists_eq_left', if_neg notConnect,
      db, if_true, drop_, query, add, Bool.false_eq_true, if_false, List.drop_succ_cons,
      List.drop_zero, asserted, added, pure_eq_ok, exists_const, true_and]
  have start : DbRun X ⟨[], []⟩ [] ⟨[], []⟩ := .nil
  have mirrors : Mirrors X (dbUpdateHashes X ⟨[doc], []⟩) := by
    rcases dbClientOp_effect done with ⟨-, impossible⟩ | ⟨cmd, op⟩
    · cases impossible
    · exact Mirrors.empty.clientOp op
  refine ⟨d, dbUpdateHashes X ⟨[doc], []⟩, mirrors, ⟨⟨[], [], _, _, [], _, bytes "db add json f", _, _,
    start, ⟨bytes " json f", rfl⟩, done, ⟨doc, List.mem_singleton_self _, rfl⟩, ?_, .nil⟩,
    ⟨doc, List.mem_singleton_self _, rfl⟩⟩, ?_⟩
  · simp [hashes]
  · rintro _ ⟨other, member, rfl⟩
    rw [List.mem_singleton.mp member]
    rfl

/-! ## Only, and always, the author -/

/-- Whenever an ad that the digest added is stored, a `db rm` of its hash that presents the user
deletes it if and only if the user is that digest. -/
def AuthorRemoves (X : Platform) (digest user : Bytes) : Prop :=
  ∀ entry s, AddedBy X digest entry s → ∀ myPeers files,
    (Deletes X myPeers files s (request (rmCommand (X.sha256 entry)) user) (X.sha256 entry) ↔
      user = digest)

variable (X) in
/-- The user that is presented passes, and has the name in the ad, exactly if it is the digest. The
name in the ad is what was taken for the user of its `db add`, up to the first zero byte. -/
def Recognised (digest user : Bytes) : Prop :=
  Named X (presented user) ∧ presented user = cstr (presented digest) ↔ user = digest

instance (digest user : Bytes) : Decidable (Recognised X digest user) :=
  inferInstanceAs (Decidable (_ ↔ _))

theorem authorRemoves_of_recognised {digest user : Bytes} (length : digest.length = 32)
    (recognised : Named X (presented digest) → Recognised X digest user) :
    AuthorRemoves X digest user := by
  rintro _ s ⟨⟨ops, ops', s₀, s₁, myPeers₀, files₀, cmd, reply, notes, run, adds, done,
    ⟨doc, member, rfl⟩, fresh, later⟩, ⟨doc', still, same⟩⟩ myPeers files
  have mirrors₀ := mirrors_of_run run .empty
  have mirrors₁ : Mirrors X s₁ := by
    rcases dbClientOp_effect done with ⟨rfl, -⟩ | ⟨cmd, op⟩
    · exact mirrors₀
    · exact mirrors₀.clientOp op
  have mirrors := mirrors_of_run later mirrors₁
  have stored : doc.data ∈ entries s.db := ⟨doc', still, same⟩
  -- the entry is new, so it was written under what was presented
  obtain ⟨front, taken, -, -⟩ := exists_rest digest
  obtain ⟨named, written⟩ := dbClientOp_add_data mirrors₀ (taken cmd)
    (adds.trans (List.prefix_append _ _)) done
  have author : authorOf X doc.data = cstr (presented digest) := by
    rcases written doc member with ⟨old, inDb, same'⟩ | ⟨d, same'⟩
    · exact absurd (mem_hashes.mpr ⟨old, inDb, congrArg _ same'⟩) fresh
    · rw [same', authorOf_entryOf]
  obtain ⟨rest, asks, blank, short⟩ := exists_rest user
  have right : Named X (presented user) ∧ presented user = authorOf X doc.data ↔ user = digest := by
    rw [author]
    exact recognised named
  by_cases own : user = digest
  · rw [← right]
    refine deletes_iff mirrors stored (asks _) blank ?_
    -- what else stands in the command is too short for a hash
    rintro _ ⟨other, inDb, rfl⟩ asked
    rcases (tokenize_trim_hex_append (hash_ne_nil doc.data) blank).2 _ asked with this | shorter
    · rw [← same, mirrors.well.unique inDb still ((hex_injective this).trans (by rw [same]))]
    · have long : (keyOf X other.data).length = 64 := by
        rw [keyOf, length_hex, X.sha256_length]
      rw [own, length] at short
      omega
  · exact iff_of_false
      (fun gone => own (right.mp (author_of_deletes mirrors stored (asks _) blank gone))) own

theorem recognised_of_authorRemoves {digest user : Bytes} (removes : AuthorRemoves X digest user)
    (named : Named X (presented digest)) : Recognised X digest user := by
  obtain ⟨front, taken, -, -⟩ := exists_rest digest
  obtain ⟨d, s, mirrors, added, only⟩ := exists_addedBy named taken
  obtain ⟨rest, asks, blank, -⟩ := exists_rest user
  have stored : entryOf X (presented digest) d ∈ entries s.db := added.still
  rw [Recognised, ← removes _ s added [] fun _ => none,
    deletes_iff mirrors stored (asks _) blank fun e inDb _ => only e inDb, authorOf_entryOf]

/-- **Only, and always, the author can remove an ad, exactly if the user is recognised.** For a
digest of 32 bytes, any user and both builds: every ad that the digest added is deleted by a
`db rm` of the user exactly when the user is the digest, if and only if what stands behind the
last `AUTH:` of the user is the name in these ads exactly when the user is the digest. -/
theorem author_removes {digest : Bytes} (length : digest.length = 32) (user : Bytes) :
    AuthorRemoves X digest user ↔ (Named X (presented digest) → Recognised X digest user) :=
  ⟨recognised_of_authorRemoves, authorRemoves_of_recognised length⟩

theorem author_removes_alice : AuthorRemoves (reference true) Reference.alice Reference.alice :=
  (author_removes (by decide) Reference.alice).mpr fun _ => by decide +kernel

open Reference in
/-- A digest that starts with a zero byte: its ad is stored without author, and a `db rm` by the
same digest leaves it there. And behind a marker the digest of `alice` does as well as alone. -/
theorem nobody_cannot_remove : nobody.length = 32 ∧
    (∃ s, AddedBy (reference true) nobody (entry "1" "") s ∧
      ¬ Deletes (reference true) [] (fun _ => none) s
        (request (rmCommand (sha256 (entry "1" ""))) nobody) (sha256 (entry "1" ""))) ∧
      ¬ AuthorRemoves (reference true) nobody nobody ∧
      ¬ AuthorRemoves (reference true) alice (bytes "zAUTH:" ++ alice) := by
  let s : Store := dbUpdateHashes (reference true) ⟨[xapianDoc (reference true) nobody (ad 1)], []⟩
  have added : AddedBy (reference true) nobody (entry "1" "") s := {
    history := ⟨[], [], _, s, [], fun _ => some (entry "1" ""), bytes "db add json ad.json",
      bytes "Added 1 entries", [.new], .nil, by decide, by decide +kernel, by decide +kernel,
      by decide +kernel, .nil⟩
    still := by decide +kernel }
  have kept : ¬ Deletes (reference true) [] (fun _ => none) s
      (request (rmCommand (sha256 (entry "1" ""))) nobody) (sha256 (entry "1" "")) := by
    rintro ⟨s', reply, notes, done, gone⟩
    have same : dbClientOp (reference true) [] (fun _ => none) s
        (request (rmCommand (sha256 (entry "1" ""))) nobody) =
          .ok (s, bytes "db rm: author != user", [.new]) := by decide +kernel
    rw [same] at done
    cases done
    exact absurd gone (by decide +kernel)
  exact ⟨by decide, ⟨s, added, kept⟩, fun removes => kept ((removes _ s added _ _).mpr rfl),
    fun removes => absurd (recognised_of_authorRemoves removes (.inl rfl)) (by decide +kernel)⟩

end Piac
