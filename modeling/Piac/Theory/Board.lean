/-
# Theory.Board — a board of items with owners

A board is a set of items. An item is asked for by its key and belongs to an owner. Anybody
may post; who withdraws names himself and some keys. If all that he names is his, it is taken
off; if something is not, he is refused, and some of what is his may be gone all the same. All
else is questions, and an answer to a question tells what is on the board, in no particular
order.

* `Serves`: what a board may answer, and what it is afterwards.
* `Visits`: one after the other. An item stays until its owner asks for its key
  (`Visits.kept`), and none is there that was not posted (`Visits.bounded`).
* `Serves.alike`: two boards with the same items answer the same question alike.
-/
import Mathlib.Data.Set.Card
import Mathlib.Data.List.Perm.Basic

namespace Piac.Theory.Board

set_option autoImplicit false

universe u v w

variable {Item : Type u} {Key : Type v} {Owner : Type w}

/-- What a board is asked. -/
inductive Ask (Item : Type u) (Key : Type v) (Owner : Type w) where
  | post (items : Set Item)
  | withdraw (owner : Owner) (keys : Set Key)
  | fetch (keys : Set Key)
  | keys
  | items
  | count
  | owners
  | other

inductive Answer (Item : Type u) (Key : Type v) where
  | added (n : Nat)
  | removed (n : Nat)
  | refused
  | empty
  | fetched (items : List Item)
  | keys (keys : List Key)
  | items (items : List Item)
  | count (n : Nat)
  | owners (n : Nat)
  | other

/-- The size of a set that is listed. -/
theorem encard_listed {list : List Item} (once : list.Nodup) :
    {i | i ∈ list}.encard = list.length := by
  classical
  rw [← List.toFinset_card_of_nodup once, ← Set.encard_coe_eq_coe_finsetCard, List.coe_toFinset]

theorem encard_listed_le (list : List Item) : {i | i ∈ list}.encard ≤ list.length := by
  classical
  rw [← List.coe_toFinset, Set.encard_coe_eq_coe_finsetCard]
  exact_mod_cast list.toFinset_card_le

variable (key : Item → Key) (owner : Item → Owner)

/-- Nothing on the board under these keys is somebody else's. -/
def Own (o : Owner) (keys : Set Key) (board : Set Item) : Prop :=
  ∀ i ∈ board, key i ∈ keys → owner i = o

/-- The board `before` may answer so, and is `after` then. What is said to be added is never
less than what is new. -/
inductive Serves : Ask Item Key Owner → Set Item → Answer Item Key → Set Item → Prop where
  | post {items before : Set Item} {n : Nat} (enough : (items \ before).encard ≤ n) :
      Serves (.post items) before (.added n) (before ∪ items)
  | withdraw {o : Owner} {keys : Set Key} {before : Set Item} {n : Nat} (own : Own key owner o keys before)
      (some_ : before.Nonempty) (counted : {i ∈ before | key i ∈ keys}.encard = n) :
      Serves (.withdraw o keys) before (.removed n) {i ∈ before | key i ∉ keys}
  | refuse {o : Owner} {keys : Set Key} {before after : Set Item}
      (foreign : ¬ Own key owner o keys before) (fewer : after ⊆ before)
      (kept : ∀ i ∈ before, ¬ (owner i = o ∧ key i ∈ keys) → i ∈ after) :
      Serves (.withdraw o keys) before .refused after
  | empty {o : Owner} {keys : Set Key} : Serves (.withdraw o keys) ∅ .empty ∅
  | fetch {keys : Set Key} {before : Set Item} {list : List Item}
      (found : ∀ i, i ∈ list ↔ i ∈ before ∧ key i ∈ keys) :
      Serves (.fetch keys) before (.fetched list) before
  | keys {before : Set Item} {list : List Key} (once : list.Nodup)
      (listed : ∀ k, k ∈ list ↔ ∃ i ∈ before, key i = k) : Serves .keys before (.keys list) before
  | items {before : Set Item} {list : List Item} (once : list.Nodup)
      (listed : ∀ i, i ∈ list ↔ i ∈ before) : Serves .items before (.items list) before
  | count {before : Set Item} {n : Nat} (counted : before.encard = n) :
      Serves .count before (.count n) before
  | owners {before : Set Item} {n : Nat} (counted : (owner '' before).encard = n) :
      Serves .owners before (.owners n) before
  | other {before : Set Item} : Serves .other before .other before

/-- The asks of a visitor, served one after the other. -/
inductive Visits (start : Set Item) : List (Ask Item Key Owner × Answer Item Key) → Set Item → Prop where
  | nil : Visits start [] start
  | snoc {visits : List (Ask Item Key Owner × Answer Item Key)} {ask : Ask Item Key Owner}
      {answer : Answer Item Key} {before after : Set Item} (earlier : Visits start visits before)
      (serves : Serves key owner ask before answer after) :
      Visits start (visits ++ [(ask, answer)]) after

variable {key owner}

section Serves

variable {ask : Ask Item Key Owner} {before after : Set Item} {answer : Answer Item Key} {i : Item}

/-- An item stays unless its owner asks for its key. -/
theorem Serves.kept (serves : Serves key owner ask before answer after) (here : i ∈ before)
    (left : ∀ keys, ask = .withdraw (owner i) keys → key i ∉ keys) : i ∈ after := by
  cases serves with
  | post => exact .inl here
  | withdraw own some_ counted =>
      refine ⟨here, fun named => ?_⟩
      exact left _ (by rw [own i here named]) named
  | refuse foreign fewer kept =>
      refine kept i here ?_
      rintro ⟨rfl, named⟩
      exact left _ rfl named
  | empty => exact here
  | _ => exact here

theorem Serves.bounded (serves : Serves key owner ask before answer after) (there : i ∈ after) :
    i ∈ before ∨ ∃ items, ask = .post items ∧ i ∈ items := by
  cases serves with
  | post => exact there.imp_right fun posted => ⟨_, rfl, posted⟩
  | withdraw => exact .inl there.1
  | refuse foreign fewer kept => exact .inl (fewer there)
  | empty => exact .inl there
  | _ => exact .inl there

/-- What has been asked for by its owner is gone, if all that he asked for was his. -/
theorem Serves.withdrawn {o : Owner} {keys : Set Key}
    (serves : Serves key owner (.withdraw o keys) before answer after) (own : Own key owner o keys before) :
    i ∈ after ↔ i ∈ before ∧ key i ∉ keys := by
  cases serves with
  | withdraw => exact Iff.rfl
  | refuse foreign fewer kept => exact absurd own foreign
  | empty => exact ⟨fun there => there.elim, fun there => there.1⟩

end Serves

/-! ## Visits -/

section Visits

variable {start board : Set Item} {visits : List (Ask Item Key Owner × Answer Item Key)} {i : Item}

/-- **An item stays on the board until its owner asks for its key.** -/
theorem Visits.kept (made : Visits key owner start visits board) (here : i ∈ start)
    (left : ∀ visit ∈ visits, ∀ keys, visit.1 = .withdraw (owner i) keys → key i ∉ keys) :
    i ∈ board := by
  induction made with
  | nil => exact here
  | snoc _ serves ih =>
      have still := ih fun visit member => left visit (List.mem_append_left _ member)
      exact serves.kept still (left _ (List.mem_append_right _ (List.mem_singleton_self _)))

/-- **Nothing is on the board that was not posted.** -/
theorem Visits.bounded (made : Visits key owner start visits board) (there : i ∈ board) :
    i ∈ start ∨ ∃ visit ∈ visits, ∃ items, visit.1 = .post items ∧ i ∈ items := by
  induction made with
  | nil => exact .inl there
  | snoc _ serves ih =>
      rcases serves.bounded there with was | ⟨items, rfl, posted⟩
      · exact (ih was).imp_right fun ⟨visit, member, items, asked, posted⟩ =>
          ⟨visit, List.mem_append_left _ member, items, asked, posted⟩
      · exact .inr ⟨_, List.mem_append_right _ (List.mem_singleton_self _), items, rfl, posted⟩

end Visits

/-! ## Two boards -/

/-- A question about the whole board. -/
def Ask.Question : Ask Item Key Owner → Prop
  | .keys | .items | .count | .owners => True
  | _ => False

/-- The same answer, but for the order of what it lists. -/
inductive Answer.Alike : Answer Item Key → Answer Item Key → Prop where
  | keys {list list' : List Key} (perm : list.Perm list') : Alike (.keys list) (.keys list')
  | items {list list' : List Item} (perm : list.Perm list') : Alike (.items list) (.items list')
  | same (answer : Answer Item Key) : Alike answer answer

/-- **Whoever has the same items answers a question alike.** -/
theorem Serves.alike {ask : Ask Item Key Owner} (question : ask.Question) {board after after' : Set Item}
    {answer answer' : Answer Item Key} (one : Serves key owner ask board answer after)
    (other : Serves key owner ask board answer' after') : answer.Alike answer' := by
  cases one with
  | keys once listed =>
      cases other with
      | keys once' listed' =>
          exact .keys ((List.perm_ext_iff_of_nodup once once').mpr fun k =>
            (listed k).trans (listed' k).symm)
  | items once listed =>
      cases other with
      | items once' listed' =>
          exact .items ((List.perm_ext_iff_of_nodup once once').mpr fun k =>
            (listed k).trans (listed' k).symm)
  | count counted =>
      cases other with
      | count counted' =>
          rw [counted] at counted'
          cases ENat.natCast_inj.mp counted'
          exact .same _
  | owners counted =>
      cases other with
      | owners counted' =>
          rw [counted] at counted'
          cases ENat.natCast_inj.mp counted'
          exact .same _
  | _ => exact question.elim

end Piac.Theory.Board
