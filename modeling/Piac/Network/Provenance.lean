/-
# Network.Provenance — whence every stored entry came

A daemon does not store the bytes a peer sends it: it parses them, and writes and
hashes the document again. If numbers are read back as they were written, that is
the identity on texts of documents (`Reserializes.same`), and every entry that is
stored or under way anywhere is, byte for byte, one that `index_db` stored for a
client, or one that a database had at the start (`not_forged`).
-/
import Piac.Network.Removal
import Piac.Store.Authorship

namespace Piac

set_option autoImplicit false

open Piac.Theory.CppString Piac.Theory.Transition Piac.Theory.MessagePassing
  Piac.Theory.TermStore

universe u

variable {X : Platform} {ι : Type u}

variable [DecidableEq ι]

/-- A `db add` under the user `author`, taken at daemon `i` after `before` and followed by
`after`, stored the entry: it is the text of one of the submitted ads with that author, which is
what is read back from it. -/
structure Produced (C : Config X ι) (ls : List (Label X ι)) (entry : Bytes) : Prop where
  history : ∃ (before after : List (Label X ι)) (i : ι) (author : Bytes)
    (docs : List (Document X.Num)) (net net' : Network ι),
    ls = before ++ .act i (.client (.add author docs)) :: after ∧
    NetRun C (fun _ _ => True) before net ∧
    step C net (.act i (.client (.add author docs))) = some net' ∧
    (∃ doc ∈ (net'.node i).store.db, doc.data = entry) ∧
    ∃ ad ∈ docs, entry = entryOf X author ad ∧
      ∃ ad', Document.deserialize X entry = .ok (some ad') ∧ ad'.author = cstr author

/-- Where an entry can come from. -/
def Origin (C : Config X ι) (ls : List (Label X ι)) (entry : Bytes) : Prop :=
  (∃ i, ∃ doc ∈ C.db i, doc.data = entry) ∨ Produced C ls entry

theorem Origin.mono {C : Config X ι} {ls : List (Label X ι)} {entry : Bytes}
    (origin : Origin C ls entry) (l : Label X ι) : Origin C (ls ++ [l]) entry := by
  refine origin.imp_right ?_
  rintro ⟨before, after, i, author, docs, net, net', rfl, rest⟩
  exact ⟨before, after ++ [l], i, author, docs, net, net', by simp, rest⟩

theorem Origin.written {C : Config X ι} {ls : List (Label X ι)} {entry : Bytes}
    (origin : Origin C ls entry) : ∃ d : Document X.Num, entry = Document.serialize X d := by
  rcases origin with ⟨i, doc, member, rfl⟩ | ⟨_, _, _, _, _, _, _, -, -, -, -, ad, -, rfl, -⟩
  · exact (C.wellStored i).written doc member
  · exact ⟨_, rfl⟩

/-- Every entry that is stored or under way has an origin. -/
theorem origin_of_run {C : Config X ι} (reread : ∀ x, X.reread x = x)
    {ls : List (Label X ι)} {net : Network ι} (run : NetRun C (fun _ _ => True) ls net) :
    Carried (fun _ e => Origin C ls e) net := by
  induction run with
  | nil => exact carried_init fun i doc member => .inl ⟨i, doc, member, rfl⟩
  | @snoc ls net net' l before _ stepped ih =>
      have mirrored := mirrored_of_run before
      have ih : Carried (fun _ e => Origin C (ls ++ [l]) e) net :=
        ih.mono fun _ _ origin => origin.mono l
      rcases step_took mirrored stepped with ⟨k, lost, kept, -, rfl⟩ |
        ⟨n, event, input, d, sends, took⟩
      · exact carried_restarted ih
      · refine took.carried (mirrored n) ih (fun _ _ origin _ => origin) ?_ ?_
        · intro e stored origin reserializes
          obtain ⟨d, rfl⟩ := origin.written
          rw [reserializes.same reread]
          exact origin
        · rintro author docs rfl ad member ⟨doc, inDb, same⟩
          have label := took.client_label
          subst label
          refine .inr ⟨ls, [], n, author, docs, net, net', rfl, before, stepped,
            ⟨doc, by rw [took.turn.node_self]; exact inDb, same⟩, ad, member, rfl,
            deserialize_entryOf author ad⟩

/-- **Ads are neither forged nor altered.** In every state of every run, restarts included, every
entry stored at any daemon was stored by `index_db` at some daemon for an earlier `db add` of a
client, byte for byte and with that client's user as its author, or was in a database at the
start. -/
theorem not_forged {C : Config X ι} (reread : ∀ x, X.reread x = x)
    {ls : List (Label X ι)} {net : Network ι} (run : NetRun C (fun _ _ => True) ls net) (i : ι)
    (doc : Doc Bytes Bytes) (member : doc ∈ (net.node i).store.db) :
    (∃ j, ∃ old ∈ C.db j, old.data = doc.data) ∨ Produced C ls doc.data :=
  (origin_of_run reread run).stored i doc member

/-- It applies to an ad that was added at one daemon and that another has received. -/
theorem not_forged_pair : ∃ (ls : List (Label (reference true) (Fin 2))) (net : Network (Fin 2)),
    NetRun (pair true) (fun _ _ => True) ls net ∧
      ∃ doc ∈ (net.node 1).store.db, Produced (pair true) ls doc.data := by
  let add : Event (reference true) := .client (.add Reference.alice [Reference.ad 1])
  let ls : List (Label (reference true) (Fin 2)) := introduction ++ [.act 0 add] ++ transfer 0 1
  let net := (exec (step (pair true)) (pair true).init ls).get (by decide +kernel)
  have run : NetRun (pair true) (fun _ _ => True) ls net := .computed _ fun _ _ _ => trivial
  have received : (net.node 1).store.db ≠ [] := by decide +kernel
  obtain ⟨doc, member⟩ := List.exists_mem_of_ne_nil _ received
  refine ⟨ls, net, run, doc, member, ?_⟩
  rcases not_forged (fun _ => rfl) run 1 doc member with ⟨_, _, impossible, -⟩ | produced
  · cases impossible
  · exact produced

end Piac
