/-
# Daemon.Calm — the db thread when no Xapian call raises

`Daemon.Rpc` has the programs of the db thread with an outcome for each Xapian call,
`Daemon.Db` and `Daemon.DbThread` the same functions without them. Here each program
does what the function of the same name does, as long as no outcome is `raises`: it
faults where the function does, and otherwise ends with its result and its database,
whenever Xapian chooses to write out.

`dbClientOp_refines` and `dbPeerOp_refines` say so of the two handlers, and
`rpcStep_eq` of a step of the db thread: what is proved of `dbStep` holds of the
programs.
-/
import Piac.Daemon.Rpc
import Piac.Theory.Refinement

namespace Piac

set_option autoImplicit false

open Piac.Theory.CppString Piac.Theory.TermStore Piac.Theory.Refinement

variable {X : Platform}

/-- No Xapian call raises. -/
def Calm (outcomes : List Outcome) : Prop := ∀ o ∈ outcomes, o ≠ .raises

/-- What the functions of the database leave as it was. -/
structure Keeps (w w' : World) : Prop where
  calm : Calm w'.outcomes
  myHashes : w'.myHashes = w.myHashes
  replies : w'.replies = w.replies
  notes : w'.notes = w.notes

theorem Keeps.trans {w w' w'' : World} (first : Keeps w w') (second : Keeps w' w'') :
    Keeps w w'' where
  calm := second.calm
  myHashes := second.myHashes.trans first.myHashes
  replies := second.replies.trans first.replies
  notes := second.notes.trans first.notes

theorem Calm.tail {outcomes : List Outcome} (calm : Calm outcomes) : Calm outcomes.tail :=
  fun o member => calm o (List.mem_of_mem_tail member)

theorem Calm.head {outcomes : List Outcome} (calm : Calm outcomes) :
    outcomes.head? ≠ some .raises :=
  fun raises => calm _ (List.mem_of_mem_head? raises) rfl

theorem Keeps.store {s : Store} {outcomes : List Outcome} {w : World}
    (keeps : Keeps (.of s outcomes) w) (disk : w.disk = s.db) : w.store = s := by
  rw [World.store, disk, keeps.myHashes]
  rfl

namespace Rpc

variable {w : World}

/-- The program does what the computation does. -/
abbrev Does {α β : Type} (post : β → α → World → Prop) (ran : EStateM.Result Thrown World α)
    (computed : Except Fault β) : Prop :=
  Refines Thrown.fault post ran computed

/-! ## Calls, blocks and scopes -/

theorem call_run (calm : Calm w.outcomes) :
    call.run w = .ok () { w with outcomes := w.outcomes.tail } := by
  show (if w.outcomes.head? = some .raises then _ else _ : Op Unit).run _ = _
  rw [if_neg calm.head]
  rfl

theorem after_call {β γ : Type} {k : Unit → Op γ} {post : β → γ → World → Prop}
    {c : Except Fault β} (calm : Calm w.outcomes)
    (rest : ∀ w', Keeps w w' → w'.disk = w.disk → w'.view = w.view → w'.count = w.count →
      w'.items = w.items → Does post ((k ()).run w') c) :
    Does post ((call >>= k).run w) c :=
  .after (call_run calm) (rest _ ⟨calm.tail, rfl, rfl, rfl⟩ rfl rfl rfl rfl)

theorem change_run (f : Database → Database) (calm : Calm w.outcomes) :
    ∃ w', (change f).run w = .ok () w' ∧ Keeps w w' ∧ w'.view = f w.view ∧ w'.count = w.count := by
  have ran := call_run calm
  by_cases flushes : w.outcomes.head? = some .flushes
  · refine ⟨{ w with outcomes := w.outcomes.tail, view := f w.view, disk := f w.view }, ?_,
      ⟨calm.tail, rfl, rfl, rfl⟩, rfl, rfl⟩
    simp [change, ran, flushes]
  · refine ⟨{ w with outcomes := w.outcomes.tail, view := f w.view }, ?_,
      ⟨calm.tail, rfl, rfl, rfl⟩, rfl, rfl⟩
    simp [change, ran, flushes]

theorem commit_run (calm : Calm w.outcomes) :
    commit.run w = .ok () { w with outcomes := w.outcomes.tail, disk := w.view } := by
  unfold commit
  rw [EStateM.run_bind, call_run calm]
  rfl

theorem close_run (calm : Calm w.outcomes) :
    close.run w = .ok () { w with outcomes := w.outcomes.tail, disk := w.view } := by
  rw [close, Theory.run_tryCatch, commit_run calm]

theorem lift_does {β : Type} (c : Except Fault β) :
    Does (fun b a w' => b = a ∧ w = w') ((lift c).run w) c := by
  cases c with
  | ok b => exact .ok ⟨rfl, rfl⟩
  | error f => exact .error f w

theorem assert_does (site : Site) (c : Bool) :
    Does (fun _ _ w' => w = w') ((assert X site c).run w) (X.assert site c) :=
  (lift_does _).mono fun _ _ _ done => done.2

/-- A `try` block that does what a computation does. -/
theorem attempt_does {α β : Type} {block : Op (Option α)} {post : β → Option α → World → Prop}
    {c : Except Fault β} (does : Does post (block.run w) c) :
    Does post ((attempt block).run w) c :=
  does.caught fun _ _ => rfl

/-- Changes to the open database are on disk at the end of its scope. -/
theorem writable_does {α β : Type} {block : Op α} {c : Except Fault β} (db : β → Database)
    (post : β → α → Nat → Prop) (calm : Calm w.outcomes)
    (does : ∀ w', Keeps w w' → w'.view = w.disk → w'.count = w.count →
      Does (fun b a w'' => post b a w''.count ∧ Keeps w' w'' ∧ w''.view = db b) (block.run w') c) :
    Does (fun b a w' => post b a w'.count ∧ Keeps w w' ∧ w'.disk = db b)
      ((writable block).run w) c := by
  refine after_call calm fun w₁ keeps disk _ count _ => ?_
  have opened : Keeps w { w₁ with view := w₁.disk } := ⟨keeps.calm, keeps.myHashes,
    keeps.replies, keeps.notes⟩
  refine Refines.after_modify ?_
  refine Refines.before ((does _ opened disk count).caught ?_) ?_
  · exact fun _ _ => rfl
  rintro b a w₂ ⟨related, keeps', view⟩
  refine ⟨a, { w₂ with outcomes := w₂.outcomes.tail, disk := w₂.view }, ?_, related, ?_, view⟩
  · rw [EStateM.run_bind, close_run keeps'.calm]
    rfl
  · exact opened.trans ⟨keeps'.calm.tail, keeps'.myHashes, keeps'.replies, keeps'.notes⟩

/-! ## Adding -/

theorem addDocument_does (author : Bytes) (ndoc : Document X.Num) (calm : Calm w.outcomes) :
    Does (fun p _ w' => Keeps w w' ∧ w'.view = p.1 ∧ w'.count = w.count)
      ((addDocument X author ndoc).run w) (Piac.addDocument X author w.view ndoc) := by
  refine (assert_does _ _).bind ?_
  rintro _ _ w' rfl
  refine after_call calm fun w₁ keeps _ view count _ => ?_
  obtain ⟨w₂, ran, keeps', view', count'⟩ := change_run _ keeps.calm
  rw [ran]
  refine .ok ⟨keeps.trans keeps', ?_, count'.trans count⟩
  rw [view', view]

theorem indexDocs_does (author : Bytes) (docs : List (Document X.Num)) (calm : Calm w.outcomes) :
    Does (fun p _ w' => Keeps w w' ∧ w'.view = p.1 ∧ w'.count = p.2)
      ((indexDocs X author docs).run w)
      (Piac.indexDocs X author w.myHashes w.view w.count docs) := by
  induction docs generalizing w with
  | nil => exact .ok ⟨⟨calm, rfl, rfl, rfl⟩, rfl, rfl⟩
  | cons d rest ih =>
      simp only [indexDocs, Piac.indexDocs]
      refine Refines.after_get ?_
      split
      · exact ih calm
      · refine (addDocument_does author _ calm).bind ?_
        rintro ⟨db, sha⟩ _ w₁ ⟨keeps, view, count⟩
        refine Refines.after_modify ?_
        have same : Piac.indexDocs X author w.myHashes db (w.count + 1) rest =
            Piac.indexDocs X author w₁.myHashes w₁.view (w₁.count + 1) rest := by
          rw [keeps.myHashes, view, count]
        rw [same]
        refine (ih (w := { w₁ with count := w₁.count + 1 }) keeps.calm).mono ?_
        rintro p _ w₂ ⟨keeps', view', count'⟩
        exact ⟨keeps.trans ⟨keeps'.calm, keeps'.myHashes, keeps'.replies, keeps'.notes⟩, view',
          count'⟩

/-- What a file adds to the open database. -/
theorem indexContent_does (author content : Bytes) (calm : Calm w.outcomes) :
    Does (fun p _ w' => Keeps w w' ∧ w'.view = p.1 ∧ w'.count = p.2)
      ((indexContent X author content).run w)
      (Document.deserializeAll X content >>=
        Piac.indexDocs X author w.myHashes w.view w.count) := by
  refine (lift_does _).bind ?_
  rintro docs _ _ ⟨rfl, rfl⟩
  refine (indexDocs_does author docs calm).before ?_
  rintro p _ w₁ ⟨keeps, view, count⟩
  refine ⟨none, { w₁ with outcomes := w₁.outcomes.tail, disk := w₁.view }, ?_,
    ⟨keeps.calm.tail, keeps.myHashes, keeps.replies, keeps.notes⟩, view, count⟩
  rw [EStateM.run_bind, commit_run keeps.calm]
  rfl

theorem indexInto_does (author content : Bytes) (calm : Calm w.outcomes) :
    Does (fun p text w' => text = p.2 ∧ Keeps w w' ∧ w'.view = p.1)
      ((indexInto X author content).run w)
      ((Document.deserializeAll X content >>= Piac.indexDocs X author w.myHashes w.view 0) >>=
        fun p => pure (p.1, bytes "Added " ++ stdToString p.2 ++ bytes " entries")) := by
  refine after_call calm fun w₁ keeps _ view _ _ => ?_
  refine Refines.after_modify ?_
  have block := attempt_does (indexContent_does (X := X) (w := { w₁ with count := 0 }) author content
    keeps.calm)
  rw [← view, ← keeps.myHashes]
  refine block.bind ?_
  rintro p _ w₂ ⟨keeps', view', count'⟩
  refine .ok ⟨?_, ?_, view'⟩
  · rw [← count']
  · exact keeps.trans ⟨keeps'.calm, keeps'.myHashes, keeps'.replies, keeps'.notes⟩

theorem indexDb_does (author inputFilename : Bytes) (files : Files) (calm : Calm w.outcomes) :
    Does (fun p text w' => text = p.2 ∧ Keeps w w' ∧ w'.disk = p.1)
      ((indexDb X author inputFilename files).run w)
      (Piac.indexDb X author w.disk inputFilename files w.myHashes) := by
  refine (assert_does _ _).bind ?_
  rintro _ _ _ rfl
  cases opened : files (cstr inputFilename) with
  | none => exact .ok ⟨rfl, ⟨calm, rfl, rfl, rfl⟩, rfl⟩
  | some content =>
      simp only
      rw [← bind_assoc]
      refine writable_does Prod.fst (fun p text _ => text = p.2) calm fun w₁ keeps view _ => ?_
      rw [← view, ← keeps.myHashes]
      exact indexInto_does author content keeps.calm

theorem dbAdd_does (author cmd : Bytes) (files : Files) (calm : Calm w.outcomes) :
    Does (fun p text w' => text = p.2 ∧ Keeps w w' ∧ w'.disk = p.1)
      ((dbAdd X author cmd files).run w) (Piac.dbAdd X author w.disk cmd files w.myHashes) := by
  refine (assert_does _ _).bind ?_
  rintro _ _ _ rfl
  split
  · exact indexDb_does author _ files calm
  · exact .ok ⟨rfl, ⟨calm, rfl, rfl, rfl⟩, rfl⟩

theorem putDocs_does (docs : List Bytes) (calm : Calm w.outcomes) :
    Does (fun db _ w' => Keeps w w' ∧ w'.view = db) ((putDocs X docs).run w)
      (Piac.dbPutDocs X w.view docs) := by
  induction docs generalizing w with
  | nil => exact .ok ⟨⟨calm, rfl, rfl, rfl⟩, rfl⟩
  | cons d rest ih =>
      refine (lift_does _).bind ?_
      rintro read _ _ ⟨rfl, rfl⟩
      cases read with
      | none => exact ih calm
      | some ndoc =>
          simp only
          split
          · exact ih calm
          · refine (addDocument_does _ ndoc calm).bind ?_
            rintro ⟨db, sha⟩ _ w₁ ⟨keeps, rfl, -⟩
            refine (ih keeps.calm).mono ?_
            rintro db _ w₂ ⟨keeps', view⟩
            exact ⟨keeps.trans keeps', view⟩

theorem dbPutDocs_does (docs : List Bytes) (calm : Calm w.outcomes) :
    Does (fun db _ w' => Keeps w w' ∧ w'.disk = db) ((dbPutDocs X docs).run w)
      (Piac.dbPutDocs X w.disk docs) := by
  have block : Does (fun db (_ : Option Unit) w' => True ∧ Keeps w w' ∧ w'.disk = db)
      ((writable (putInto X docs)).run w) (Piac.dbPutDocs X w.disk docs) := by
    refine writable_does id (fun _ _ _ => True) calm fun w₁ keeps view _ => ?_
    refine after_call keeps.calm fun w₂ keeps' _ view' _ _ => ?_
    rw [← view, ← view']
    refine (putDocs_does docs keeps'.calm).before ?_
    rintro db _ w₃ ⟨keeps'', view''⟩
    refine ⟨none, { w₃ with outcomes := w₃.outcomes.tail, disk := w₃.view }, ?_, trivial,
      keeps'.trans ⟨keeps''.calm.tail, keeps''.myHashes, keeps''.replies, keeps''.notes⟩, view''⟩
    rw [EStateM.run_bind, commit_run keeps''.calm]
    rfl
  refine (attempt_does block).before ?_
  rintro db _ w₁ ⟨-, done⟩
  exact ⟨(), w₁, rfl, done⟩

/-! ## Removing -/

/-- The early return of the loop, or the text after it. -/
theorem rmDocs_does (author : Bytes) (toDelete hashes : List Bytes) (calm : Calm w.outcomes) :
    Does (fun p early w' => early.getD (bytes "Removed " ++ stdToString w'.count ++
        bytes " entries") = p.2 ∧ Keeps w w' ∧ w'.view = p.1)
      ((rmDocs X author toDelete hashes).run w)
      (Piac.rmDocs X author toDelete w.view w.count hashes) := by
  induction hashes generalizing w with
  | nil => exact .ok ⟨rfl, ⟨calm, rfl, rfl, rfl⟩, rfl⟩
  | cons h rest ih =>
      have later : ∀ w₁, Keeps w w₁ → Does (fun p early w' =>
            early.getD (bytes "Removed " ++ stdToString w'.count ++ bytes " entries") = p.2 ∧
              Keeps w w' ∧ w'.view = p.1)
          ((rmDocs X author toDelete rest).run w₁)
          (Piac.rmDocs X author toDelete w₁.view w₁.count rest) := by
        intro w₁ keeps
        refine (ih keeps.calm).mono ?_
        rintro p early w₂ ⟨text, keeps', view⟩
        exact ⟨text, keeps.trans keeps', view⟩
      refine (assert_does _ _).bind ?_
      rintro _ _ _ rfl
      refine after_call calm fun w₁ keeps _ view count _ => ?_
      refine Refines.after_get ?_
      rw [← view, ← count]
      cases (postings (hashTerm h) w₁.view).head? with
      | none => exact later w₁ keeps
      | some doc =>
          simp only
          split
          · refine after_call keeps.calm fun w₂ keeps' _ view' count' _ => ?_
            rw [← view', ← count']
            refine (lift_does _).bind ?_
            rintro ndoc _ _ ⟨rfl, rfl⟩
            split
            · obtain ⟨w₃, ran, keeps'', view'', count''⟩ :=
                change_run (delete (hashTerm h)) keeps'.calm
              refine Refines.after ran ?_
              refine Refines.after_modify ?_
              rw [← view'', ← count'']
              exact later { w₃ with count := w₃.count + 1 } (keeps.trans (keeps'.trans
                ⟨keeps''.calm, keeps''.myHashes, keeps''.replies, keeps''.notes⟩))
            · exact .ok ⟨rfl, keeps.trans keeps', rfl⟩
          · exact later w₁ keeps

theorem dbRmDocs_does (author : Bytes) (toDelete : List Bytes) (calm : Calm w.outcomes) :
    Does (fun p text w' => text = p.2 ∧ Keeps w w' ∧ w'.disk = p.1)
      ((dbRmDocs X author toDelete).run w)
      (Piac.dbRmDocs X author w.disk toDelete w.myHashes) := by
  let text (early : Option Bytes) (count : Nat) : Bytes :=
    early.getD (bytes "Removed " ++ stdToString count ++ bytes " entries")
  refine Refines.after_modify ?_
  have block : Does (fun p early w' => text early w'.count = p.2 ∧ Keeps { w with count := 0 } w' ∧
      w'.disk = p.1) ((writable (rmFrom X author toDelete)).run { w with count := 0 })
      (Piac.dbRmDocs X author w.disk toDelete w.myHashes) := by
    refine writable_does Prod.fst (fun p early count => text early count = p.2) calm
      fun w₁ keeps view count => ?_
    refine after_call keeps.calm fun w₂ keeps' _ view' count' _ => ?_
    have zero : w₂.count = 0 := count'.trans count
    refine Refines.after_get ?_
    unfold Piac.dbRmDocs
    rw [view', view]
    split
    · exact .ok ⟨rfl, keeps', view'.trans view⟩
    · refine Refines.after_get ?_
      have same : Piac.rmDocs X author toDelete w.disk 0 w.myHashes =
          Piac.rmDocs X author toDelete w₂.view w₂.count w₂.myHashes := by
        rw [view', view, zero, keeps'.myHashes, keeps.myHashes]
      show Does _ _ (Piac.rmDocs X author toDelete w.disk 0 w.myHashes)
      rw [same]
      refine (rmDocs_does author toDelete _ keeps'.calm).mono ?_
      rintro p early w₃ ⟨text, keeps'', view''⟩
      exact ⟨text, keeps'.trans keeps'', view''⟩
  refine (attempt_does block).before ?_
  rintro p early w₁ ⟨same, keeps, disk⟩
  exact ⟨_, w₁, rfl, same, ⟨keeps.calm, keeps.myHashes, keeps.replies, keeps.notes⟩, disk⟩

theorem dbRm_does (author cmd : Bytes) (calm : Calm w.outcomes) :
    Does (fun p text w' => text = p.2 ∧ Keeps w w' ∧ w'.disk = p.1)
      ((dbRm X author cmd).run w) (Piac.dbRm X author w.disk cmd w.myHashes) := by
  refine (assert_does _ _).bind ?_
  rintro _ _ _ rfl
  split
  · exact dbRmDocs_does author _ calm
  · exact .ok ⟨rfl, ⟨calm, rfl, rfl, rfl⟩, rfl⟩

/-! ## Looking up -/

theorem getDocs_does (hashes : List Bytes) (calm : Calm w.outcomes) :
    Does (fun docs _ w' => Keeps w w' ∧ w'.disk = w.disk ∧ w'.items = w.items ++ docs)
      ((getDocs X hashes).run w) (Piac.getDocs X w.disk hashes) := by
  induction hashes generalizing w with
  | nil => exact .ok ⟨⟨calm, rfl, rfl, rfl⟩, rfl, (List.append_nil _).symm⟩
  | cons h rest ih =>
      refine (assert_does _ _).bind ?_
      rintro _ _ _ rfl
      refine after_call calm fun w₁ keeps disk _ _ items => ?_
      refine Refines.after_get ?_
      refine Refines.after_modify ?_
      rw [← disk]
      let found := ((postings (hashTerm h) w₁.disk).head?.map Doc.data).toList
      refine (ih (w := { w₁ with items := w₁.items ++ found }) keeps.calm).map ?_
      rintro docs _ w₂ ⟨keeps', disk', items'⟩
      refine ⟨keeps.trans ⟨keeps'.calm, keeps'.myHashes, keeps'.replies, keeps'.notes⟩, disk', ?_⟩
      rw [items', items, List.append_assoc]

/-- What the functions that collect items have in common: an empty database is seen first. -/
theorem collect_does {rest : Op (Option (List Bytes))} {c : Except Fault (List Bytes)}
    (calm : Calm w.outcomes) (empty : w.disk = [] → c = .ok [])
    (does : w.disk ≠ [] → ∀ w', Keeps w w' → w'.disk = w.disk → w'.items = [] →
      Does (fun docs early w'' => early.getD w''.items = docs ∧ Keeps w' w'' ∧ w''.disk = w'.disk)
        (rest.run w') c) :
    Does (fun docs a w' => a = docs ∧ Keeps w w' ∧ w'.disk = w.disk)
      ((do
        modify fun w => { w with items := [] }
        let early ← attempt do
          call
          call
          if Piac.getDoccount (← get).disk = 0 then return some []
          rest
        return early.getD (← get).items : Op (List Bytes)).run w) c := by
  refine Refines.after_modify ?_
  refine Refines.before (attempt_does (?_ : Does (fun docs early w' =>
    early.getD w'.items = docs ∧ Keeps w w' ∧ w'.disk = w.disk) _ c)) ?_
  · refine after_call calm fun w₁ keeps disk _ _ items => ?_
    refine after_call keeps.calm fun w₂ keeps' disk' _ _ items' => ?_
    have both : Keeps w w₂ := Keeps.trans ⟨keeps.calm, keeps.myHashes, keeps.replies, keeps.notes⟩
      keeps'
    refine Refines.after_get ?_
    split
    · rename_i none_
      rw [empty (getDoccount_eq_zero.mp (disk ▸ disk' ▸ none_))]
      exact .ok ⟨rfl, both, disk'.trans disk⟩
    · rename_i some_
      have stored : w.disk ≠ [] := fun none_ =>
        some_ (getDoccount_eq_zero.mpr (disk'.trans (disk.trans none_)))
      refine (does stored w₂ both (disk'.trans disk) (items'.trans items)).mono ?_
      rintro docs early w₃ ⟨same, keeps'', disk''⟩
      exact ⟨same, both.trans keeps'', disk''.trans (disk'.trans disk)⟩
  · rintro docs early w₁ ⟨same, keeps, disk⟩
    exact ⟨_, w₁, rfl, same, keeps, disk⟩

theorem dbGetDocs_does (hashes : List Bytes) (calm : Calm w.outcomes) :
    Does (fun docs a w' => a = docs ∧ Keeps w w' ∧ w'.disk = w.disk)
      ((dbGetDocs X hashes).run w) (Piac.dbGetDocs X w.disk hashes) := by
  refine collect_does calm (fun none_ => if_pos (getDoccount_eq_zero.mpr none_))
    fun stored w₁ keeps disk items => ?_
  rw [Piac.dbGetDocs, if_neg fun none_ => stored (getDoccount_eq_zero.mp none_), ← disk]
  refine (getDocs_does hashes keeps.calm).before ?_
  rintro docs _ w₂ ⟨keeps', disk', items'⟩
  refine ⟨none, w₂, rfl, ?_, keeps', disk'⟩
  rw [items', items]
  rfl

/-- The loop of a listing. -/
theorem eachDoc_does (item : Bytes → Except Fault Bytes) (db : Database) (calm : Calm w.outcomes) :
    Does (fun entries _ w' => Keeps w w' ∧ w'.disk = w.disk ∧ w'.items = w.items ++ entries)
      ((eachDoc item db).run w) (db.mapM fun doc => item doc.data) := by
  induction db generalizing w with
  | nil => exact .ok ⟨⟨calm, rfl, rfl, rfl⟩, rfl, (List.append_nil _).symm⟩
  | cons doc rest ih =>
      rw [List.mapM_cons]
      refine after_call calm fun w₁ keeps disk _ _ items => ?_
      refine (lift_does _).bind ?_
      rintro entry _ _ ⟨rfl, rfl⟩
      refine Refines.after_modify ?_
      refine (ih (w := { w₁ with items := w₁.items ++ [entry] }) keeps.calm).map ?_
      rintro entries _ w₂ ⟨keeps', disk', items'⟩
      refine ⟨keeps.trans ⟨keeps'.calm, keeps'.myHashes, keeps'.replies, keeps'.notes⟩,
        disk'.trans disk, ?_⟩
      rw [items', items, List.append_assoc]
      rfl

theorem itemsOf_does (item : Bytes → Except Fault Bytes) (calm : Calm w.outcomes) :
    Does (fun entries a w' => a = entries ∧ Keeps w w' ∧ w'.disk = w.disk)
      ((itemsOf item).run w) (w.disk.mapM fun doc => item doc.data) := by
  refine collect_does calm (fun none_ => by rw [none_]; rfl) fun _ w₁ keeps disk items => ?_
  rw [← disk]
  refine Refines.after_get ?_
  refine (eachDoc_does item _ keeps.calm).before ?_
  rintro entries _ w₂ ⟨keeps', disk', items'⟩
  refine ⟨none, w₂, rfl, ?_, keeps', disk'⟩
  rw [items', items]
  rfl

theorem dbListHash_does (inhex : Bool) (calm : Calm w.outcomes) :
    Does (fun hashes a w' => a = hashes ∧ Keeps w w' ∧ w'.disk = w.disk)
      ((dbListHash X inhex).run w) (.ok (Piac.dbListHash X w.disk inhex)) := by
  have all : (w.disk.mapM fun doc => hashItem X inhex doc.data) =
      .ok (Piac.dbListHash X w.disk inhex) := by
    unfold Piac.dbListHash
    induction w.disk with
    | nil => rfl
    | cons doc rest ih =>
        rw [List.mapM_cons, ih]
        rfl
  rw [← all]
  exact itemsOf_does _ calm

theorem dbListDoc_does (calm : Calm w.outcomes) :
    Does (fun items a w' => a = items ∧ Keeps w w' ∧ w'.disk = w.disk)
      ((dbListDoc X).run w) (Piac.dbListDoc X w.disk) :=
  itemsOf_does _ calm

theorem dbListNumuser_does (calm : Calm w.outcomes) :
    Does (fun count a w' => a = count ∧ Keeps w w' ∧ w'.disk = w.disk)
      ((dbListNumuser X).run w) (Piac.dbListNumuser X w.disk) := by
  refine Refines.after_modify ?_
  refine Refines.before (attempt_does (?_ : Does (fun count early w' =>
    early.getD 0 = count ∧ Keeps w w' ∧ w'.disk = w.disk) _ (Piac.dbListNumuser X w.disk))) ?_
  · refine after_call calm fun w₁ keeps disk _ _ items => ?_
    refine after_call keeps.calm fun w₂ keeps' disk' _ _ items' => ?_
    have both : Keeps w w₂ := Keeps.trans ⟨keeps.calm, keeps.myHashes, keeps.replies, keeps.notes⟩
      keeps'
    have sameDisk : w₂.disk = w.disk := disk'.trans disk
    refine Refines.after_get ?_
    split
    · rename_i none_
      rw [sameDisk, getDoccount_eq_zero] at none_
      rw [none_]
      exact .ok ⟨rfl, both, sameDisk.trans none_⟩
    · refine Refines.after_get ?_
      rw [← sameDisk]
      refine (eachDoc_does (userItem X) _ keeps'.calm).bind ?_
      rintro users _ w₃ ⟨keeps'', disk'', items''⟩
      refine .ok ⟨?_, both.trans keeps'', disk''⟩
      rw [items'', items', items]
      rfl
  · rintro count early w₁ ⟨same, keeps, disk⟩
    exact ⟨_, w₁, rfl, same, keeps, disk⟩

theorem getDoccount_run (calm : Calm w.outcomes) :
    ∃ w', getDoccount.run w = .ok (Piac.getDoccount w.disk) w' ∧ Keeps w w' ∧ w'.disk = w.disk := by
  refine ⟨{ w with outcomes := w.outcomes.tail.tail }, ?_, ⟨calm.tail.tail, rfl, rfl, rfl⟩, rfl⟩
  simp only [getDoccount, attempt, EStateM.run_bind, Theory.run_tryCatch, call_run calm,
    call_run (w := { w with outcomes := w.outcomes.tail }) calm.tail]
  rfl

theorem dbQuery_run (cmd : Bytes) (calm : Calm w.outcomes) :
    ∃ w', (dbQuery X cmd).run w = .ok (Piac.dbQuery X w.disk cmd) w' ∧ Keeps w w' ∧
      w'.disk = w.disk := by
  refine ⟨{ w with outcomes := w.outcomes.tail.tail }, ?_, ⟨calm.tail.tail, rfl, rfl, rfl⟩, rfl⟩
  simp only [dbQuery, attempt, EStateM.run_bind, Theory.run_tryCatch, call_run calm,
    call_run (w := { w with outcomes := w.outcomes.tail }) calm.tail]
  rfl

theorem dbList_does (cmd : Bytes) (calm : Calm w.outcomes) :
    Does (fun reply a w' => a = reply ∧ Keeps w w' ∧ w'.disk = w.disk)
      ((dbList X cmd).run w) (Piac.dbList X w.disk cmd) := by
  unfold dbList Piac.dbList
  dsimp only
  split
  · refine (dbListDoc_does calm).bind ?_
    rintro items _ w' ⟨rfl, done⟩
    exact .ok ⟨rfl, done⟩
  split
  · obtain ⟨w', ran, done⟩ := getDoccount_run calm
    exact Refines.after ran (.ok ⟨rfl, done⟩)
  split
  · refine (dbListNumuser_does calm).bind ?_
    rintro count _ w' ⟨rfl, done⟩
    exact .ok ⟨rfl, done⟩
  split
  · obtain ⟨hashes, w', ran, rfl, done⟩ := (dbListHash_does (X := X) true calm).returns
    exact Refines.after ran (.ok ⟨rfl, done⟩)
  · exact .ok ⟨rfl, ⟨calm, rfl, rfl, rfl⟩, rfl⟩

/-! ## The handlers -/

theorem dbUpdateHashes_run (calm : Calm w.outcomes) :
    ∃ w', (dbUpdateHashes X).run w = .ok () w' ∧ Calm w'.outcomes ∧ w'.replies = w.replies ∧
      w'.notes = w.notes ∧ w'.store = Piac.dbUpdateHashes X w.store := by
  obtain ⟨hashes, w', ran, rfl, keeps, disk⟩ := (dbListHash_does (X := X) false calm).returns
  refine ⟨{ w' with myHashes := (Piac.dbListHash X w.disk false).dedup }, ?_, keeps.calm,
    keeps.replies, keeps.notes, ?_⟩
  · rw [dbUpdateHashes, EStateM.run_bind, ran]
    rfl
  · simp only [World.store, Piac.dbUpdateHashes, disk]

/-- What follows an add or a removal: the hashes, the note and the reply. -/
theorem change_reply {w w₁ : World} (reply : Bytes) (keeps : Keeps w w₁) :
    ∃ w', (do
        dbUpdateHashes X
        note .new
        Rpc.reply reply : Op Unit).run w₁ = .ok () w' ∧
      w'.store = Piac.dbUpdateHashes X ⟨w₁.disk, w.myHashes⟩ ∧
      w'.replies = w.replies ++ [reply] ∧ w'.notes = w.notes ++ [.new] := by
  obtain ⟨w₂, ran, -, replies, notes, store⟩ := dbUpdateHashes_run (X := X) keeps.calm
  refine ⟨{ w₂ with notes := w₂.notes ++ [.new], replies := w₂.replies ++ [reply] }, ?_, ?_, ?_, ?_⟩
  · rw [EStateM.run_bind, ran]
    rfl
  · rw [← keeps.myHashes]
    exact store
  · rw [replies, keeps.replies]
  · rw [notes, keeps.notes]

/-- **A request is handled as if there were no outcomes**, as long as none raises. -/
theorem dbClientOp_refines (myPeers : List Bytes) (files : Files) (s : Store) (msg : Bytes)
    {outcomes : List Outcome} (calm : Calm outcomes) :
    Does (fun r _ w' => w'.store = r.1 ∧ w'.replies = [r.2.1] ∧ w'.notes = r.2.2)
      ((dbClientOp X myPeers files msg).run (.of s outcomes))
      (Piac.dbClientOp X myPeers files s msg) := by
  rw [dbClientOp_eq]
  unfold dbClientOp
  rw [extractAuth_eq]
  by_cases starts : StartsAuth msg
  · rw [if_pos starts, if_pos starts]
    exact .error _ _
  rw [if_neg starts, if_neg starts]
  have extracted : (lift (.ok (commandOf msg, userOf msg))).run (.of s outcomes) =
    .ok (commandOf msg, userOf msg) (.of s outcomes) := rfl
  rw [Theory.run_bind_ok extracted]
  dsimp only
  cases Request.read (commandOf msg) with
  | connect => exact .ok ⟨rfl, rfl, rfl⟩
  | query q =>
      obtain ⟨w', ran, keeps, disk⟩ := dbQuery_run (X := X) (w := .of s outcomes) q calm
      refine Refines.after ran (.ok ⟨keeps.store disk, ?_, keeps.notes⟩)
      exact congrArg (· ++ _) keeps.replies
  | add q =>
      refine (assert_does _ _).bind ?_
      rintro _ _ _ rfl
      refine (dbAdd_does _ q files calm).bind ?_
      rintro ⟨db, _⟩ text w₁ ⟨rfl, keeps, rfl⟩
      obtain ⟨w', ran, store, replies, notes⟩ := change_reply (X := X) text keeps
      exact ran ▸ .ok ⟨store, replies, notes⟩
  | rm q =>
      refine (assert_does _ _).bind ?_
      rintro _ _ _ rfl
      refine (dbRm_does _ q calm).bind ?_
      rintro ⟨db, _⟩ text w₁ ⟨rfl, keeps, rfl⟩
      obtain ⟨w', ran, store, replies, notes⟩ := change_reply (X := X) text keeps
      exact ran ▸ .ok ⟨store, replies, notes⟩
  | list q =>
      refine (dbList_does q calm).bind ?_
      rintro _ text w₁ ⟨rfl, keeps, disk⟩
      exact .ok ⟨keeps.store disk, congrArg (· ++ _) keeps.replies, keeps.notes⟩
  | peers => exact .ok ⟨rfl, rfl, rfl⟩
  | unknown => exact .ok ⟨rfl, rfl, rfl⟩

/-- **So is a message of the p2p thread.** -/
theorem dbPeerOp_refines (s : Store) (req : DbReq) {outcomes : List Outcome}
    (calm : Calm outcomes) :
    Does (fun r _ w' => w'.store = r.1 ∧ w'.replies = [] ∧ w'.notes = r.2)
      ((dbPeerOp X req).run (.of s outcomes)) (Piac.dbPeerOp X s req) := by
  cases req with
  | get addr hashes =>
      refine (assert_does _ _).bind ?_
      rintro _ _ _ rfl
      refine (dbGetDocs_does hashes calm).bind ?_
      rintro _ docs w₁ ⟨rfl, keeps, disk⟩
      exact .ok ⟨keeps.store disk, keeps.replies, congrArg (· ++ _) keeps.notes⟩
  | ins docs =>
      refine (assert_does _ _).bind ?_
      rintro _ _ _ rfl
      refine Refines.after_get ?_
      show Does _ ((if unknownDocs X s.myHashes docs ≠ [] then _ else _ : Op Unit).run _) _
      by_cases none_ : unknownDocs X s.myHashes docs = []
      · rw [if_pos none_, if_neg (not_not_intro none_)]
        exact .ok ⟨rfl, rfl, rfl⟩
      · rw [if_neg none_, if_pos none_]
        refine (dbPutDocs_does _ calm).bind ?_
        rintro db _ w₁ ⟨keeps, rfl⟩
        obtain ⟨w₂, ran, -, replies, notes, store⟩ := dbUpdateHashes_run (X := X) keeps.calm
        refine Refines.after ran (.ok ⟨?_, replies.trans keeps.replies, ?_⟩)
        · rw [show ({ w₂ with notes := w₂.notes ++ [.new] } : World).store = w₂.store from rfl,
            store, World.store, keeps.myHashes]
          rfl
        · exact congrArg (· ++ [DbRep.new]) (notes.trans keeps.notes)

end Rpc

/-- **A step of the db thread in which no Xapian call raises is a step without outcomes.** -/
theorem rpcStep_eq (s : Store) (op : RpcOp) (calm : Calm op.outcomes) :
    rpcStep X s op = dbStep X s op.op := by
  obtain ⟨op, outcomes⟩ := op
  cases op with
  | client myPeers files msg =>
      have refines := Rpc.dbClientOp_refines (X := X) myPeers files s msg calm
      simp only [rpcStep, rpcHandler, dbStep]
      cases done : dbClientOp X myPeers files s msg with
      | ok r =>
          rw [done] at refines
          obtain ⟨_, w, ran, store, -⟩ := refines.returns
          rw [ran]
          exact congrArg some store
      | error f =>
          rw [done] at refines
          obtain ⟨w, ran⟩ := refines.fails
          rw [ran]
          rfl
  | peer req =>
      have refines := Rpc.dbPeerOp_refines (X := X) s req calm
      simp only [rpcStep, rpcHandler, dbStep]
      cases done : dbPeerOp X s req with
      | ok r =>
          rw [done] at refines
          obtain ⟨_, w, ran, store, -⟩ := refines.returns
          rw [ran]
          exact congrArg some store
      | error f =>
          rw [done] at refines
          obtain ⟨w, ran⟩ := refines.fails
          rw [ran]
          rfl

end Piac
