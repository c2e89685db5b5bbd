/-
# Store.Admission — no ad without an author

`db_put_docs` refuses an entry of a peer whose author is empty, after it parsed the
entry. `index_db` asserts that the author it is given is not empty, and a Release
build has no assertions; nor does the assertion see that an author that starts with
a zero byte is written as an empty one. An entry is `Attributed` if an author is
read from it. What peers send is stored attributed (`Reserializes.attributed`), what a
client submits only under a user with a name (`attributed_entryOf`), so the database
has no anonymous ad as long as every submitted ad is `Signed`
(`no_anonymous_ads`).
-/
import Piac.Daemon.Request
import Piac.Store.Mirror

namespace Piac

set_option autoImplicit false

open Piac.Theory.CppString Piac.Theory.TermStore Piac.Theory.Transition

variable {X : Platform}

variable (X) in
/-- An author is read from the entry. -/
def Attributed (entry : Bytes) : Prop :=
  ∃ ad, Document.deserialize X entry = .ok (some ad) ∧ ad.author ≠ []

variable (X) in
def NoAnonymous (s : Store) : Prop := ∀ doc ∈ s.db, Attributed X doc.data

/-! ## The two ways in -/

/-- An entry of a client has an author exactly if its user is not cut to nothing. -/
theorem attributed_entryOf {user : Bytes} {ad : Document X.Num} :
    Attributed X (entryOf X user ad) ↔ cstr user ≠ [] := by
  have read : Document.deserialize X (entryOf X user ad) =
      .ok (some (Document.stored X { ad with author := user })) :=
    Document.deserialize_serialize _
  constructor
  · rintro ⟨ad', read', named⟩
    rw [read] at read'
    cases read'
    exact named
  · intro named
    exact ⟨_, read, named⟩

/-- The author that is read from an entry has no zero byte. -/
theorem cstr_author {entry : Bytes} {ad : Document X.Num}
    (read : Document.deserialize X entry = .ok (some ad)) : cstr ad.author = ad.author := by
  unfold Document.deserialize at read
  split at read
  · cases read
  · rename_i obj parsed
    cases value : Document.ofValue X obj with
    | error f => rw [value] at read; cases read
    | ok d =>
        rw [value] at read
        cases read
        simp only [Document.ofValue, bind_eq_ok] at value
        obtain ⟨_, -, _, -, author, isAuthor, _, -, _, -, _, -, _, -, _, -, _, -, _, -, _, -,
          shape⟩ := value
        cases shape
        show cstr author = author
        -- a string member goes through a C string
        unfold Document.getString at isAuthor
        cases found : (obj.member (bytes "author")).bind Piac.Theory.Json.Value.asString with
        | none => rw [found] at isAuthor; cases isAuthor
        | some text =>
            rw [found] at isAuthor
            cases isAuthor
            exact cstr_cstr text

/-- What `db_put_docs` stores has an author. -/
theorem Reserializes.attributed {entry stored : Bytes}
    (reserializes : Reserializes X entry stored) : Attributed X stored := by
  obtain ⟨ad, read, named, rfl⟩ := reserializes
  apply attributed_entryOf.mpr
  rw [cstr_author read]
  exact named

/-! ## Operations -/

variable (X) in
/-- A client submits ads under a user that is neither empty nor starts with a zero byte. -/
def Signed (_ : Store) : DbOp → Prop
  | .client _ files msg =>
      (Request.read (commandOf msg)).submits X files ≠ [] → cstr (userOf msg) ≠ []
  | .peer _ => True

theorem NoAnonymous.clientOp_add {s s' : Store} {author : Bytes} {docs : List (Document X.Num)}
    {notes : List DbRep} (clean : NoAnonymous X s) (mirrors : Mirrors X s)
    (named : docs ≠ [] → cstr author ≠ [])
    (done : clientOp X s (.add author docs) = .ok (s', notes)) : NoAnonymous X s' := by
  intro doc member
  rcases Piac.clientOp_add_data mirrors done member with ⟨old, inDb, same⟩ | ⟨d, inDocs, same⟩
  · exact same ▸ clean old inDb
  · rw [same]
    exact attributed_entryOf.mpr (named (List.ne_nil_of_mem inDocs))

theorem NoAnonymous.dbStep {s s' : Store} {op : DbOp} (clean : NoAnonymous X s)
    (mirrors : Mirrors X s) (signed : Signed X s op) (stepped : dbStep X s op = some s') :
    NoAnonymous X s' := by
  cases op with
  | client myPeers files msg =>
      obtain ⟨⟨s₁, reply, notes⟩, done, rfl⟩ := toOption_map_eq_some.mp stepped
      rcases dbClientOp_steps done with ⟨rfl, -⟩ | added | ⟨toDelete, removed⟩
      · exact clean
      · exact clean.clientOp_add mirrors signed added
      · exact fun doc member => clean doc ((clientOp_rm mirrors removed).2.2 doc member)
  | peer req =>
      obtain ⟨⟨s₁, reps⟩, done, rfl⟩ := toOption_map_eq_some.mp stepped
      cases req with
      | get addr wanted =>
          rw [(dbPeerOp_get mirrors done).1]
          exact clean
      | ins docs =>
          intro doc member
          rcases dbPeerOp_ins_data mirrors done member with ⟨old, inDb, same⟩ | ⟨d, -, stored⟩
          · exact same ▸ clean old inDb
          · exact stored.attributed

/-- **No anonymous ad is stored** by any sequence of client requests and requests of the p2p
thread, in either build, if every ad that a client submits is signed. -/
theorem no_anonymous_ads {s₀ s : Store} {ops : List DbOp} (mirrors : Mirrors X s₀)
    (clean : NoAnonymous X s₀) (run : Run (dbStep X) (Signed X) s₀ ops s) : NoAnonymous X s := by
  have both : Mirrors X s ∧ NoAnonymous X s :=
    @Run.invariant _ _ _ _ (fun s => Mirrors X s ∧ NoAnonymous X s) _ _ _ run ⟨mirrors, clean⟩
      fun _ _ _ before signed stepped =>
        ⟨before.1.dbStep stepped, before.2.dbStep before.1 signed stepped⟩
  exact both.2

instance (s : Store) (op : DbOp) : Decidable (Signed X s op) :=
  match op with
  | .client _ _ _ => inferInstanceAs (Decidable (_ ≠ _ → _ ≠ _))
  | .peer _ => .isTrue trivial

open Reference in
/-- It applies to an ad of `alice`, and to one of a peer without author. -/
theorem no_anonymous_ads_alice : ∃ s, Run (dbStep (reference false)) (Signed (reference false))
    ⟨[], []⟩ [.client [] (fun _ => some (entry "1" "")) (bytes "db add json ad.json AUTH:" ++ alice),
      .peer (.ins [entry "2" ""])] s ∧
    s.myHashes.length = 1 ∧ NoAnonymous (reference false) s :=
  ⟨_, .checked (by decide +kernel), by decide +kernel,
    no_anonymous_ads .empty (fun _ member => absurd member List.not_mem_nil)
      (.checked (by decide +kernel))⟩

open Reference in
/-- A Release build stores the ad of a client that gives no user, and both builds that of a user
whose digest starts with a zero byte; a peer would have both refused. -/
theorem anonymous_ads_stored :
    (∃ s, DbRun (reference true) ⟨[], []⟩
      [.client [] (fun _ => some (entry "1" "")) (bytes "db add json ad.json")] s ∧
      ¬ NoAnonymous (reference true) s) ∧
    ∃ s, DbRun (reference false) ⟨[], []⟩
      [.client [] (fun _ => some (entry "1" "")) (bytes "db add json ad.json AUTH:" ++ nobody)] s ∧
      ¬ NoAnonymous (reference false) s := by
  have anonymous : ∀ ndebug s, (∃ doc ∈ s.db, doc.data = entry "1" "") →
      ¬ NoAnonymous (reference ndebug) s := by
    rintro ndebug s ⟨doc, member, same⟩ clean
    have written : entry "1" "" = entryOf (reference ndebug) [] (ad 1) := by
      cases ndebug <;> decide +kernel
    have attributed := clean doc member
    rw [same, written] at attributed
    exact (@attributed_entryOf (reference ndebug) [] (ad 1)).mp attributed rfl
  exact ⟨⟨_, .computed (by decide +kernel) fun _ _ _ => trivial,
      anonymous true _ (by decide +kernel)⟩,
    ⟨_, .computed (by decide +kernel) fun _ _ _ => trivial,
      anonymous false _ (by decide +kernel)⟩⟩

end Piac
