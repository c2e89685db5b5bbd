/-
# Daemon.Listing — the hashes after a listing that fails

`db_list_hash` once more, with an outcome for each Xapian call it makes: two to open
and count the database, one for the first posting, and five for a document, the test at
the end of the list among them. The error of a call leaves the loop, is swallowed, and
what was collected is returned; `db_update_hashes` puts it in the place of `my_hashes`.

`eachHash_run` says what the loop has collected when it ends, by the position of the
first call that raises, and `failed_listing` when that is no loss. `Daemon.Rpc` has one
call for a document; `dbUpdateHashes_coarse` relates the two.
-/
import Piac.Daemon.Calm

namespace Piac

set_option autoImplicit false

open Piac.Theory.CppString Piac.Theory.TermStore Piac.Theory.Refinement

namespace Listing

open Rpc

section Programs

variable (X : Platform)

/-- The loop of `db_list_hash`. -/
def eachHash (inhex : Bool) : Database → Op Unit
  | [] => call                   -- it != db.postlist_end( {} )
  | doc :: rest => do
      call                       -- it != db.postlist_end( {} )
      call                       -- *it
      call                       -- db.get_document( … )
      call                       -- get_data()
      let entry ← lift (hashItem X inhex doc.data)
      modify fun w => { w with items := w.items ++ [entry] }
      call                       -- ++it
      eachHash inhex rest

def dbListHash (inhex : Bool) : Op (List Bytes) := do
  modify fun w => { w with items := [] }
  let early ← attempt do
    call
    call
    if Piac.getDoccount (← get).disk = 0 then return some []
    call                         -- db.postlist_begin( {} )
    eachHash X inhex (← get).disk
    return none
  return early.getD (← get).items

def dbUpdateHashes : Op Unit := do
  let hashes ← dbListHash X false
  modify fun w => { w with myHashes := hashes.dedup }

end Programs

variable {X : Platform}

/-! ## The first call that raises -/

/-- The position of the first call that raises. -/
def firstRaise (outcomes : List Outcome) : Option Nat := outcomes.findIdx? (· = .raises)

theorem firstRaise_eq_zero {outcomes : List Outcome} :
    firstRaise outcomes = some 0 ↔ outcomes.head? = some .raises := by
  cases outcomes with
  | nil => simp [firstRaise]
  | cons o rest => by_cases here : o = .raises <;> simp [firstRaise, List.findIdx?_cons, here]

theorem firstRaise_tail {outcomes : List Outcome} (quiet : firstRaise outcomes ≠ some 0) :
    firstRaise outcomes.tail = (firstRaise outcomes).map (· - 1) := by
  cases outcomes with
  | nil => rfl
  | cons o rest =>
      have here : o ≠ .raises := fun same => quiet (firstRaise_eq_zero.mpr (congrArg some same))
      simp only [firstRaise, List.findIdx?_cons, here, decide_false, List.tail_cons, Bool.false_eq_true,
        if_false, Option.map_map]
      cases rest.findIdx? (· = .raises) <;> rfl

/-- The world after a call. -/
def spent (w : World) : World := { w with outcomes := w.outcomes.tail }

theorem call_raised {w : World} (raised : firstRaise w.outcomes = some 0) :
    call.run w = .error .xapian (spent w) := by
  show (if w.outcomes.head? = some .raises then _ else _ : Op Unit).run _ = _
  rw [if_pos (firstRaise_eq_zero.mp raised)]
  rfl

theorem call_returned {w : World} (quiet : firstRaise w.outcomes ≠ some 0) :
    call.run w = .ok () (spent w) := by
  show (if w.outcomes.head? = some .raises then _ else _ : Op Unit).run _ = _
  rw [if_neg fun raised => quiet (firstRaise_eq_zero.mpr raised)]
  rfl

/-- The world after `j` calls that returned, the first to raise being at `first`. -/
structure Passed (first : Option Nat) (j : Nat) (w : World) : Prop where
  next : firstRaise w.outcomes = first.map (· - j)
  past : ∀ i, first = some i → j ≤ i

theorem Passed.start {first : Option Nat} {w : World} (same : firstRaise w.outcomes = first) :
    Passed first 0 w where
  next := by rw [same]; cases first <;> rfl
  past _ _ := Nat.zero_le _

theorem Passed.raised {first : Option Nat} {j : Nat} {w : World} (passed : Passed first j w)
    (now : firstRaise w.outcomes = some 0) : first = some j := by
  rw [passed.next] at now
  cases first with
  | none => cases now
  | some i =>
      have bound := passed.past i rfl
      simp only [Option.map_some, Option.some.injEq] at now ⊢
      omega

theorem Passed.spent {first : Option Nat} {j : Nat} {w : World} (passed : Passed first j w)
    (quiet : firstRaise w.outcomes ≠ some 0) : Passed first (j + 1) (spent w) where
  next := by
    show firstRaise w.outcomes.tail = _
    rw [firstRaise_tail quiet, passed.next]
    cases first <;> rfl
  past i same := by
    have bound := passed.past i same
    rw [passed.next, same] at quiet
    simp only [Option.map_some, ne_eq, Option.some.injEq] at quiet
    omega

/-- A call and what follows it. -/
theorem after_call {α : Type} {k : Unit → Op α} {first : Option Nat} {j : Nat} {w : World}
    {post : EStateM.Result Thrown World α → Prop} (passed : Passed first j w)
    (raised : first = some j → post (.error .xapian (spent w)))
    (quiet : Passed first (j + 1) (spent w) → post ((k ()).run (spent w))) :
    post ((call >>= k).run w) := by
  rw [EStateM.run_bind]
  by_cases now : firstRaise w.outcomes = some 0
  · rw [call_raised now]
    exact raised (passed.raised now)
  · rw [call_returned now]
    exact quiet (passed.spent now)

/-! ## What a listing has collected -/

/-- How many of `n` documents a loop has read when the call at that position raises. -/
def readBefore (n : Nat) : Option Nat → Nat
  | none => n
  | some i => min n ((i + 1) / 5)

/-- The run returned or stopped at a Xapian error, having added these items to the world. -/
def Collected (w : World) (items : List Bytes) (r : EStateM.Result Thrown World Unit) : Prop :=
  ∃ w', (r = .ok () w' ∨ r = .error .xapian w') ∧
    w' = { w with outcomes := w'.outcomes, items := w.items ++ items }

theorem Collected.stopped (w : World) : Collected w [] (.error .xapian (spent w)) :=
  ⟨spent w, .inr rfl, by rw [List.append_nil]; rfl⟩

theorem Collected.returned (w : World) : Collected w [] (.ok () (spent w)) :=
  ⟨spent w, .inl rfl, by rw [List.append_nil]; rfl⟩

/-- A call that returned changes nothing that is collected. -/
theorem Collected.of_spent {w : World} {items : List Bytes}
    {r : EStateM.Result Thrown World Unit} (collected : Collected (spent w) items r) :
    Collected w items r := by
  obtain ⟨w', ended, same⟩ := collected
  exact ⟨w', ended, same⟩

theorem Collected.cons {w : World} {item : Bytes} {items : List Bytes}
    {r : EStateM.Result Thrown World Unit}
    (collected : Collected { w with items := w.items ++ [item] } items r) :
    Collected w (item :: items) r := by
  obtain ⟨w', ended, same⟩ := collected
  exact ⟨w', ended, by rw [same]; simp⟩

/-- The hash of a document, as it is listed. -/
def listed (X : Platform) (inhex : Bool) (doc : Doc Bytes Bytes) : Bytes :=
  if inhex then hex (X.sha256 doc.data) else X.sha256 doc.data

theorem readBefore_zero {n i : Nat} (early : i < 4) : readBefore n (some i) = 0 := by
  have none_ : (i + 1) / 5 = 0 := by omega
  rw [readBefore, none_, Nat.min_zero]

theorem readBefore_succ (n i : Nat) :
    readBefore (n + 1) (some (i + 5)) = readBefore n (some i) + 1 := by
  simp only [readBefore]
  omega

/-- **The loop collects the documents it has read when a call raises.** -/
theorem eachHash_run (inhex : Bool) (db : Database) {first : Option Nat} {w : World}
    (same : firstRaise w.outcomes = first) :
    Collected w ((db.take (readBefore db.length first)).map (listed X inhex))
      ((eachHash X inhex db).run w) := by
  induction db generalizing first w with
  | nil =>
      rw [List.take_nil]
      show Collected w [] (call.run w)
      by_cases now : firstRaise w.outcomes = some 0
      · rw [call_raised now]
        exact .stopped w
      · rw [call_returned now]
        exact .returned w
  | cons doc rest ih =>
      -- a call that raises before the document is read leaves nothing of it
      have stopped : ∀ (i : Nat) (w' : World), i < 4 → first = some i →
          Collected w' (((doc :: rest).take (readBefore (doc :: rest).length first)).map
            (listed X inhex)) (.error .xapian (spent w')) := by
        rintro i w' early rfl
        rw [readBefore_zero early]
        exact .stopped w'
      refine after_call (.start same) (stopped 0 w (by decide)) fun passed₁ => .of_spent ?_
      refine after_call passed₁ (stopped 1 _ (by decide)) fun passed₂ => .of_spent ?_
      refine after_call passed₂ (stopped 2 _ (by decide)) fun passed₃ => .of_spent ?_
      refine after_call passed₃ (stopped 3 _ (by decide)) fun passed₄ => .of_spent ?_
      generalize spent (spent (spent (spent w))) = w₄ at passed₄ ⊢
      show Collected w₄ _ ((call >>= fun _ => eachHash X inhex rest).run
        { w₄ with items := w₄.items ++ [listed X inhex doc] })
      have passed₄' : Passed first 4 { w₄ with items := w₄.items ++ [listed X inhex doc] } :=
        ⟨passed₄.next, passed₄.past⟩
      refine after_call passed₄' ?_ fun passed₅ => ?_
      · rintro rfl
        have one : readBefore (doc :: rest).length (some 4) = 1 := by
          simp only [readBefore, List.length_cons]
          omega
        rw [one]
        exact .cons (.stopped _)
      · have later := (ih passed₅.next).of_spent
        cases first with
        | none =>
            simp only [readBefore, List.take_length, Option.map_none] at later ⊢
            exact later.cons
        | some i =>
            obtain ⟨k, rfl⟩ := Nat.exists_eq_add_of_le' (passed₅.past i rfl)
            rw [List.length_cons, readBefore_succ, List.take_succ_cons]
            exact later.cons

/-- How many of `n` documents the listing has read when the call at that position raises. -/
def readOf (n : Nat) : Option Nat → Nat
  | none => n
  | some i => min n ((i - 2) / 5)

/-- What the `try` block of the listing ends in, having collected these items. -/
def Ended (w : World) (items : List Bytes)
    (r : EStateM.Result Thrown World (Option (List Bytes))) : Prop :=
  ∃ w', (r = .ok none w' ∨ (r = .ok (some []) w' ∧ items = []) ∨ r = .error .xapian w') ∧
    w' = { w with outcomes := w'.outcomes, items := w.items ++ items }

theorem Ended.of_spent {w : World} {items : List Bytes}
    {r : EStateM.Result Thrown World (Option (List Bytes))} (ended : Ended (spent w) items r) :
    Ended w items r := by
  obtain ⟨w', how, same⟩ := ended
  exact ⟨w', how, same⟩

theorem Ended.stopped (w : World) : Ended w [] (.error .xapian (spent w)) :=
  ⟨spent w, .inr (.inr rfl), by rw [List.append_nil]; rfl⟩

variable (X) in
/-- The `try` block of `db_list_hash`. -/
def block (inhex : Bool) : Op (Option (List Bytes)) := do
  call
  call
  if Piac.getDoccount (← get).disk = 0 then return some []
  call
  eachHash X inhex (← get).disk
  return none

theorem block_run (inhex : Bool) {first : Option Nat} {w : World}
    (same : firstRaise w.outcomes = first) :
    Ended w ((w.disk.take (readOf w.disk.length first)).map (listed X inhex))
      ((block X inhex).run w) := by
  have stopped : ∀ (i : Nat) (w' : World), i < 3 → first = some i →
      Ended w' ((w.disk.take (readOf w.disk.length first)).map (listed X inhex))
        (.error .xapian (spent w')) := by
    rintro i w' early rfl
    have none_ : (i - 2) / 5 = 0 := by omega
    rw [readOf, none_, Nat.min_zero]
    exact .stopped w'
  refine after_call (.start same) (stopped 0 w (by decide)) fun passed₁ => .of_spent ?_
  refine after_call passed₁ (stopped 1 _ (by decide)) fun passed₂ => .of_spent ?_
  have disk : (spent (spent w)).disk = w.disk := rfl
  generalize spent (spent w) = w₂ at passed₂ disk ⊢
  show Ended w₂ _ ((if Piac.getDoccount w₂.disk = 0 then pure (some []) else
    call >>= fun _ => get >>= fun w => eachHash X inhex w.disk >>= fun _ => pure none : Op _).run w₂)
  rw [← disk] at stopped ⊢
  by_cases empty : Piac.getDoccount w₂.disk = 0
  · rw [if_pos empty, List.eq_nil_of_length_eq_zero empty, List.take_nil]
    exact ⟨w₂, .inr (.inl ⟨rfl, rfl⟩), by rw [List.map_nil, List.append_nil]⟩
  · rw [if_neg empty]
    refine after_call passed₂ (stopped 2 _ (by decide)) fun passed₃ => .of_spent ?_
    obtain ⟨w', ended, shape⟩ := eachHash_run (X := X) inhex w₂.disk passed₃.next
    have read : readBefore w₂.disk.length (first.map (· - 3)) = readOf w₂.disk.length first := by
      cases first with
      | none => rfl
      | some i =>
          have bound := passed₃.past i rfl
          have position : i - 3 + 1 = i - 2 := by omega
          simp only [readBefore, readOf, Option.map_some, position]
    rw [read] at shape
    show Ended _ _ ((eachHash X inhex w₂.disk >>= fun _ => pure none : Op _).run (spent w₂))
    rw [EStateM.run_bind]
    rcases ended with ran | ran
    · rw [ran]
      exact ⟨w', .inl rfl, shape⟩
    · rw [ran]
      exact ⟨w', .inr (.inr rfl), shape⟩

/-- **What `db_list_hash` returns.** -/
theorem dbListHash_run (inhex : Bool) (w : World) : ∃ w',
    (dbListHash X inhex).run w =
      .ok ((w.disk.take (readOf w.disk.length (firstRaise w.outcomes))).map (listed X inhex)) w' ∧
    w' = { w with outcomes := w'.outcomes, items := w'.items } := by
  obtain ⟨w', how, shape⟩ := block_run (X := X) inhex (w := { w with items := [] }) rfl
  have run : (dbListHash X inhex).run w = (attempt (block X inhex) >>= fun early =>
      get >>= fun w => pure (early.getD w.items)).run { w with items := [] } := rfl
  have items : w'.items =
      (w.disk.take (readOf w.disk.length (firstRaise w.outcomes))).map (listed X inhex) := by
    rw [shape]
    rfl
  refine ⟨w', ?_, by rw [shape]⟩
  rw [run, EStateM.run_bind, attempt, Theory.run_tryCatch]
  rcases how with ran | ⟨ran, none_⟩ | ran
  · rw [ran, ← items]
    rfl
  · rw [ran, none_]
    rfl
  · rw [ran, ← items]
    rfl

theorem dbUpdateHashes_run (w : World) : ∃ w',
    (dbUpdateHashes X).run w = .ok () w' ∧
    w' = { w with outcomes := w'.outcomes, items := w'.items,
                  myHashes := (hashes X
                    (w.disk.take (readOf w.disk.length (firstRaise w.outcomes)))).dedup } := by
  obtain ⟨w', ran, shape⟩ := dbListHash_run (X := X) false w
  refine ⟨{ w' with myHashes := (hashes X
    (w.disk.take (readOf w.disk.length (firstRaise w.outcomes)))).dedup }, ?_, ?_⟩
  · rw [dbUpdateHashes, EStateM.run_bind, ran]
    rfl
  · rw [shape]

theorem dbUpdateHashes_of (s : Store) (outcomes : List Outcome) :
    ∃ w, (dbUpdateHashes X).run (.of s outcomes) = .ok () w ∧ w.disk = s.db ∧
      w.myHashes = (hashes X (s.db.take (readOf s.db.length (firstRaise outcomes)))).dedup := by
  obtain ⟨w, ran, shape⟩ := dbUpdateHashes_run (X := X) (.of s outcomes)
  refine ⟨w, ran, ?_, ?_⟩
  · rw [shape]
    rfl
  · rw [shape]
    rfl

/-! ## When a listing loses nothing -/

/-- The documents that are read before that call. -/
def readDocs (db : Database) (i : Nat) : Database := db.take ((i - 2) / 5)

/-- The same hashes. -/
def Same (hashes hashes' : List Bytes) : Prop := ∀ h, h ∈ hashes ↔ h ∈ hashes'

variable (X) in
/-- No call raises, or the documents read before the first that does have all hashes of the
database, or the hashes in `my_hashes`. -/
def Harmless (s : Store) (outcomes : List Outcome) : Prop :=
  ∀ i, firstRaise outcomes = some i →
    Same (hashes X (readDocs s.db i)) (hashes X s.db) ∨
      Same (hashes X (readDocs s.db i)) s.myHashes

theorem same_dedup {hashes hashes' : List Bytes} : Same hashes.dedup hashes' ↔ Same hashes hashes' := by
  simp only [Same, List.mem_dedup]

/-- **A failed listing.** `db_update_hashes` returns, and leaves `my_hashes` complete or as
it was exactly when the failure is harmless. -/
theorem failed_listing (s : Store) (outcomes : List Outcome) :
    ∃ w, (dbUpdateHashes X).run (.of s outcomes) = .ok () w ∧ w.disk = s.db ∧
      ((Same w.myHashes (hashes X s.db) ∨ Same w.myHashes s.myHashes) ↔ Harmless X s outcomes) := by
  obtain ⟨w, ran, disk, myHashes⟩ := dbUpdateHashes_of (X := X) s outcomes
  refine ⟨w, ran, disk, ?_⟩
  rw [myHashes, same_dedup, same_dedup]
  cases at_ : firstRaise outcomes with
  | none =>
      simp only [readOf, List.take_length]
      refine iff_of_true (.inl fun h => Iff.rfl) ?_
      intro i impossible
      rw [at_] at impossible
      cases impossible
  | some i =>
      have read : s.db.take (readOf s.db.length (some i)) = readDocs s.db i := by
        rw [readOf, readDocs, min_comm]
        exact List.take_eq_take_min.symm
      rw [read]
      constructor
      · intro kept j same
        rw [at_] at same
        cases same
        exact kept
      · intro harmless
        exact harmless i at_

/-- Where no two documents have the same hash, all of them have to be read. -/
theorem harmless_iff {s : Store} {outcomes : List Outcome} (distinct : (hashes X s.db).Nodup) :
    Harmless X s outcomes ↔ ∀ i, firstRaise outcomes = some i →
      s.db.length ≤ (i - 2) / 5 ∨ Same (hashes X (readDocs s.db i)) s.myHashes := by
  have whole : ∀ i, Same (hashes X (readDocs s.db i)) (hashes X s.db) ↔
      s.db.length ≤ (i - 2) / 5 := by
    intro i
    constructor
    · intro same
      have fewer := (distinct.subperm fun h stored => (same h).mpr stored).length_le
      simp only [hashes, readDocs, List.length_map, List.length_take] at fewer
      omega
    · intro enough h
      rw [readDocs, List.take_of_length_le enough]
  constructor
  · intro harmless i at_
    exact (harmless i at_).imp_left (whole i).mp
  · intro late i at_
    exact (late i at_).imp_left (whole i).mpr

/-! ## The coarse listing -/

/-- Some calls that return, and one that raises. -/
def raisingAfter (k : Nat) : List Outcome := List.replicate k .returns ++ [.raises]

theorem firstRaise_raisingAfter_succ (k : Nat) : firstRaise (raisingAfter (k + 1)) ≠ some 0 := by
  rw [ne_eq, firstRaise_eq_zero]
  nofun

/-- The loop of `Daemon.Rpc`, with one call for a document. -/
theorem eachDoc_run (inhex : Bool) {db : Database} {k : Nat} {w : World} (fewer : k < db.length)
    (outcomes : w.outcomes = raisingAfter k) : ∃ w',
    (eachDoc (hashItem X inhex) db).run w = .error .xapian w' ∧
      w' = { w with outcomes := w'.outcomes, items := w.items ++ (db.take k).map (listed X inhex) } := by
  induction k generalizing db w with
  | zero =>
      obtain ⟨doc, rest, rfl⟩ := List.exists_cons_of_length_pos fewer
      refine ⟨spent w, ?_, by rw [List.take_zero, List.map_nil, List.append_nil]; rfl⟩
      rw [eachDoc, EStateM.run_bind, call_raised (by rw [outcomes]; rfl)]
  | succ k ih =>
      obtain ⟨doc, rest, rfl⟩ := List.exists_cons_of_length_pos (Nat.zero_lt_of_lt fewer)
      have quiet : firstRaise w.outcomes ≠ some 0 := by
        rw [outcomes]
        exact firstRaise_raisingAfter_succ k
      obtain ⟨w', ran, shape⟩ := ih
        (w := { spent w with items := w.items ++ [listed X inhex doc] })
        (Nat.lt_of_succ_lt_succ fewer) (congrArg List.tail outcomes)
      refine ⟨w', ?_, ?_⟩
      · rw [eachDoc, EStateM.run_bind, call_returned quiet]
        exact ran
      · rw [shape, List.take_succ_cons, List.map_cons, List.append_cons w.items _ (List.map _ _)]
        rfl

/-- A listing of `Daemon.Rpc` that fails at a document returns those before it. -/
theorem itemsOf_run (inhex : Bool) {k : Nat} {w : World} (fewer : k < w.disk.length)
    (outcomes : w.outcomes = raisingAfter (k + 2)) : ∃ w',
    (Rpc.dbListHash X inhex).run w = .ok ((w.disk.take k).map (listed X inhex)) w' ∧
      w'.disk = w.disk := by
  let w₀ : World := { w with items := [] }
  have first : call.run w₀ = .ok () (spent w₀) :=
    call_returned (by rw [show w₀.outcomes = _ from outcomes]; exact firstRaise_raisingAfter_succ _)
  have second : call.run (spent w₀) = .ok () (spent (spent w₀)) :=
    call_returned (by
      rw [show (spent w₀).outcomes = raisingAfter (k + 1) from congrArg List.tail outcomes]
      exact firstRaise_raisingAfter_succ k)
  obtain ⟨w', ran, shape⟩ := eachDoc_run (X := X) inhex (w := spent (spent w₀)) fewer
    (congrArg (fun o => o.tail.tail) outcomes)
  have some_ : ¬ Piac.getDoccount (spent (spent w₀)).disk = 0 := Nat.ne_of_gt (Nat.zero_lt_of_lt fewer)
  have block : (do
      call
      call
      if Piac.getDoccount (← get).disk = 0 then return some []
      eachDoc (hashItem X inhex) (← get).disk
      return none : Op (Option (List Bytes))).run w₀ = .error .xapian w' := by
    rw [EStateM.run_bind, first]
    show (call >>= fun _ => _ : Op _).run (spent w₀) = _
    rw [EStateM.run_bind, second]
    show (if Piac.getDoccount (spent (spent w₀)).disk = 0 then _ else _ : Op _).run _ = _
    rw [if_neg some_]
    show (eachDoc (hashItem X inhex) w.disk >>= fun _ => _ : Op _).run (spent (spent w₀)) = _
    rw [EStateM.run_bind, ran]
  have items : w'.items = (w.disk.take k).map (listed X inhex) := by
    rw [shape]
    exact List.nil_append _
  refine ⟨w', ?_, by rw [shape]; rfl⟩
  have run : (Rpc.dbListHash X inhex).run w = (attempt (do
      call
      call
      if Piac.getDoccount (← get).disk = 0 then return some []
      eachDoc (hashItem X inhex) (← get).disk
      return none) >>= fun early => get >>= fun w => pure (early.getD w.items)).run w₀ := rfl
  rw [run, EStateM.run_bind, attempt, Theory.run_tryCatch, block, ← items]
  rfl

/-- **Whatever the failing listing leaves, one of `Daemon.Rpc` leaves it too.** -/
theorem dbUpdateHashes_coarse (s : Store) (outcomes : List Outcome) : ∃ outcomes' w w',
    (dbUpdateHashes X).run (.of s outcomes) = .ok () w ∧
      (Rpc.dbUpdateHashes X).run (.of s outcomes') = .ok () w' ∧ w'.store = w.store := by
  obtain ⟨w, ran, disk, myHashes⟩ := dbUpdateHashes_of (X := X) s outcomes
  by_cases all : readOf s.db.length (firstRaise outcomes) < s.db.length
  · let outcomes' := raisingAfter (readOf s.db.length (firstRaise outcomes) + 2)
    obtain ⟨w', ran', disk'⟩ := itemsOf_run (X := X) false (w := .of s outcomes') all rfl
    refine ⟨outcomes', w, { w' with myHashes := w.myHashes }, ran, ?_, ?_⟩
    · rw [Rpc.dbUpdateHashes, EStateM.run_bind, ran', myHashes]
      rfl
    · simp only [World.store, disk, disk']
      rfl
  · obtain ⟨w', ran', -, -, -, store⟩ := Rpc.dbUpdateHashes_run (X := X) (w := .of s [])
      (List.forall_mem_nil _)
    refine ⟨[], w, w', ran, ran', ?_⟩
    rw [store]
    show Piac.dbUpdateHashes X ⟨s.db, s.myHashes⟩ = ⟨w.disk, w.myHashes⟩
    rw [disk, myHashes, List.take_of_length_le (Nat.le_of_not_lt all)]
    rfl

/-! ## On a platform -/

section Examples

open Reference

/-- A database with two ads of alice, and their hashes. -/
def twoAds : Store :=
  Piac.dbUpdateHashes (reference true)
    ⟨[xapianDoc (reference true) alice (ad 1), xapianDoc (reference true) alice (ad 2)], []⟩

/-- The call that gets the second document raises, and its hash is gone. -/
theorem hash_lost : ¬ ∀ (s : Store) (outcomes : List Outcome) (w : World),
    (dbUpdateHashes (reference true)).run (.of s outcomes) = .ok () w →
      Same w.myHashes (hashes (reference true) s.db) ∨ Same w.myHashes s.myHashes := by
  intro all
  obtain ⟨w, ran, shape⟩ := dbUpdateHashes_run (X := reference true) (.of twoAds (raisingAfter 10))
  have myHashes : w.myHashes = (hashes (reference true) (twoAds.db.take 1)).dedup := by
    rw [shape]
    rfl
  have stored : sha256 (aliceEntry "2") ∈ hashes (reference true) twoAds.db := by decide +kernel
  have known : sha256 (aliceEntry "2") ∈ twoAds.myHashes := by decide +kernel
  have gone : sha256 (aliceEntry "2") ∉ w.myHashes := by
    rw [myHashes, List.mem_dedup]
    decide +kernel
  rcases all twoAds (raisingAfter 10) w ran with same | same
  · exact gone ((same _).mpr stored)
  · exact gone ((same _).mpr known)

end Examples

end Listing

end Piac
