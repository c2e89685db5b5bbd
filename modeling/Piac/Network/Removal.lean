/-
# Network.Removal — when a removed ad stays removed

A removal is announced to nobody: the daemon broadcasts the hashes it has left, and
whoever still has the entry announces it in turn. So a removed ad stays removed when
the copy was the last one (`LastCopy`): no other daemon the news could reach stores an
entry that is the ad or becomes it when it is stored again (`LeadsTo`), and no message
under way carries one.

How far news can reach is settled by the command lines (`Joined`): no daemon ever
hears of an address outside its own component, restarts included (`within_of_run`).
-/
import Piac.Network.Sync

namespace Piac

set_option autoImplicit false

open Piac.Theory.CppString Piac.Theory.Transition Piac.Theory.MessagePassing
  Piac.Theory.TermStore

universe u

variable {X : Platform} {ι : Type u}

/-! ## Components -/

/-- Joined through the peers the daemons are started with. -/
def Joined (C : Config X ι) : ι → ι → Prop :=
  Relation.EqvGen fun i j => C.address j ∈ C.peers i

namespace Joined

variable {C : Config X ι} {i j k : ι}

theorem refl (i : ι) : Joined C i i := Relation.EqvGen.refl i

theorem symm (joined : Joined C i j) : Joined C j i := Relation.EqvGen.symm _ _ joined

theorem trans (first : Joined C i j) (second : Joined C j k) : Joined C i k :=
  Relation.EqvGen.trans _ _ _ first second

end Joined

/-- Addresses and messages stay within a component. -/
structure Within (C : Config X ι) (net : Network ι) : Prop where
  knows : ∀ i j, Knows C net i j → Joined C i j
  links : ∀ i j, ∀ m ∈ net.link i j, Joined C i j
  named : ∀ i j addrs, .peer addrs ∈ net.link i j → ∀ k, C.address k ∈ addrs → Joined C i k

theorem within_init (C : Config X ι) : Within C C.init where
  knows i j known := .rel i j known
  links _ _ _ member := by cases member
  named _ _ _ member := by cases member

variable [DecidableEq ι]

theorem Took.within {C : Config X ι} {net net' : Network ι} {l : Label X ι} {n : ι}
    {event : Event X} {input : Option (ι × PeerMsg)} {d : Daemon} {sends : Sends}
    (took : Took C net net' l n event input d sends) (within : Within C net) : Within C net' := by
  refine ⟨fun i j knows => ?_, fun i j m member => ?_, fun i j addrs member k named => ?_⟩
  · unfold Knows at knows
    by_cases here : i = n
    · subst here
      rw [took.turn.node_self] at knows
      rcases took.acts.peers with ⟨same, -⟩ | ⟨same, -⟩ | ⟨addrs, rfl, learned⟩
      · rw [same] at knows; exact within.knows i j knows
      · rw [same] at knows; exact within.knows i j knows
      · rcases (learned.mem _).mp knows with old | ⟨named, -⟩
        · exact within.knows i j old
        · obtain ⟨src, -, -, inFlight⟩ := took.source
          exact (within.links src i _ inFlight).symm.trans (within.named src i addrs inFlight j named)
    · rw [took.turn.node_other i here] at knows
      exact within.knows i j knows
  · rcases took.mem_new member with old | ⟨rfl, sent⟩
    · exact within.links i j m old
    · exact within.knows i j (took.acts.sent sent).1
  · rcases took.mem_new member with old | ⟨rfl, sent⟩
    · exact within.named i j addrs old k named
    · rw [took.acts.sent_peer sent] at named
      rcases List.mem_cons.mp named with same | known
      · obtain rfl := C.address_injective same
        exact .refl k
      · exact within.knows i k known

theorem within_restarted {C : Config X ι} {net : Network ι} {k : ι} {lost kept : ι → Nat}
    (within : Within C net) : Within C (restarted C net k lost kept) where
  knows i j knows := by
    unfold Knows at knows
    by_cases here : i = k
    · subst here
      rw [restarted_self] at knows
      exact .rel i j knows
    · rw [restarted_other C net lost kept here] at knows
      exact within.knows i j knows
  links i j m member := within.links i j m (mem_restarted_link member)
  named i j addrs member := within.named i j addrs (mem_restarted_link member)

/-- A restart brings no entry to a new place. -/
theorem carried_restarted {C : Config X ι} {P : ι → Bytes → Prop} {net : Network ι} {k : ι}
    {lost kept : ι → Nat} (carried : Carried P net) :
    Carried P (restarted C net k lost kept) := by
  have at_ : ∀ i, CarriedAt (P i) ((restarted C net k lost kept).node i) := by
    intro i
    by_cases here : i = k
    · subst here
      rw [restarted_self]
      exact ⟨carried.stored i, fun _ _ member => absurd member List.not_mem_nil,
        fun _ member => absurd member List.not_mem_nil⟩
    · rw [restarted_other C net lost kept here]
      exact carried.at i
  exact ⟨fun i => (at_ i).stored, fun i => (at_ i).puts,
    fun i j docs member => carried.docs i j docs (mem_restarted_link member),
    fun i => (at_ i).ins⟩

/-- **No daemon hears of an address outside its component**, in any run. -/
theorem within_of_run {C : Config X ι} {allowed : Network ι → Label X ι → Prop}
    {ls : List (Label X ι)} {net : Network ι} (run : NetRun C allowed ls net) : Within C net := by
  have both : (∀ i, Mirrors X (net.node i).store) ∧ Within C net := by
    refine @Run.invariant _ _ (step C) allowed
      (fun net => (∀ i, Mirrors X (net.node i).store) ∧ Within C net) _ _ _ run
      ⟨mirrored_init C, within_init C⟩ ?_
    rintro net l net' ⟨mirrored, within⟩ - stepped
    refine ⟨mirrored_step mirrored stepped, ?_⟩
    rcases step_took mirrored stepped with ⟨k, lost, kept, -, rfl⟩ |
      ⟨n, event, input, d, sends, took⟩
    · exact within_restarted within
    · exact took.within within
  exact both.2

omit [DecidableEq ι] in
theorem Within.chain {C : Config X ι} {net : Network ι} (within : Within C net) {i j : ι}
    (chain : Chain C net i j) : Joined C i j := by
  induction chain with
  | refl => exact .refl i
  | tail _ link ih =>
      obtain ⟨-, -, knows | knows⟩ := link
      · exact ih.trans (within.knows _ _ knows)
      · exact ih.trans (within.knows _ _ knows).symm

/-! ## The last copy -/

variable (X) in
/-- The entry has the hash, or gets it when peers store it again, any number of times. -/
def LeadsTo (h e : Bytes) : Prop :=
  ∃ stored, Relation.ReflTransGen (Reserializes X) e stored ∧ X.sha256 stored = h

/-- Nobody in the component of `a` holds an entry that leads to the hash, but for the one
with that hash at `a` itself, and no message carries one. -/
structure LastCopy (C : Config X ι) (net : Network ι) (a : ι) (h : Bytes) : Prop where
  stored : ∀ i, Joined C a i → ∀ doc ∈ (net.node i).store.db, LeadsTo X h doc.data →
    i = a ∧ X.sha256 doc.data = h
  puts : ∀ i, Joined C a i → ∀ addr docs, .put addr docs ∈ (net.node i).toP2p →
    ∀ e ∈ docs, ¬ LeadsTo X h e
  docs : ∀ i j, Joined C a j → ∀ docs, .doc docs ∈ net.link i j → ∀ e ∈ docs, ¬ LeadsTo X h e
  ins : ∀ i, Joined C a i → ∀ docs, .ins docs ∈ (net.node i).toDb → ∀ e ∈ docs, ¬ LeadsTo X h e

/-- No client adds the ad again, nor one that becomes it when it is stored again. -/
def NotAgain (h : Bytes) (_ : Network ι) (l : Label X ι) : Prop :=
  ∀ i author docs, l = .act i (.client (.add author docs)) →
    ∀ ad ∈ docs, ¬ LeadsTo X h (entryOf X author ad)

/-- In the component of `a` no entry leads to the hash. -/
abbrev Forgotten (C : Config X ι) (a : ι) (h : Bytes) : Network ι → Prop :=
  Carried fun i e => Joined C a i → ¬ LeadsTo X h e

omit [DecidableEq ι] in
theorem Forgotten.notMem {C : Config X ι} {net : Network ι} {a i : ι} {h : Bytes}
    (forgotten : Forgotten C a h net) (joined : Joined C a i) :
    h ∉ hashes X (net.node i).store.db := by
  intro stored
  obtain ⟨doc, member, same⟩ := mem_hashes.mp stored
  exact forgotten.stored i doc member joined ⟨doc.data, .refl, same⟩

theorem forgotten_step {C : Config X ι} {net net' : Network ι} {l : Label X ι} {a : ι} {h : Bytes}
    (mirrored : ∀ i, Mirrors X (net.node i).store) (within : Within C net)
    (notAgain : NotAgain h net l) (stepped : step C net l = some net')
    (forgotten : Forgotten C a h net) : Forgotten C a h net' := by
  rcases step_took mirrored stepped with ⟨k, lost, kept, -, rfl⟩ | ⟨n, event, input, d, sends, took⟩
  · exact carried_restarted forgotten
  · refine took.carried (mirrored n) forgotten ?_ ?_ ?_
    · intro e j absent knows joined
      exact absent (joined.trans (within.knows n j knows).symm)
    · rintro e stored absent reserializes joined ⟨last, path, same⟩
      exact absent joined ⟨last, .head reserializes path, same⟩
    · rintro author docs rfl ad member - -
      exact notAgain n author docs took.client_label ad member

/-- The removal of the last copy leaves nothing that leads to the hash. -/
theorem forgotten_of_removal {C : Config X ι} {before after : Network ι} {a : ι}
    {user h : Bytes} {toDelete : List Bytes} (mirrored : ∀ i, Mirrors X (before.node i).store)
    (removed : step C before (.act a (.client (.rm user toDelete))) = some after)
    (gone : h ∉ hashes X (after.node a).store.db) (last : LastCopy C before a h) :
    Forgotten C a h after := by
  rcases step_took mirrored removed with ⟨_, _, _, same, -⟩ | ⟨n, event, input, d, sends, took⟩
  · cases same
  rcases took.label with ⟨same, -, rfl⟩ | ⟨_, _, same, -⟩
  · cases same
    obtain ⟨-, acts, turn, -⟩ := took
    have nothing : sends = [] := by
      cases acts with
      | move moves => cases moves
      | client _ => rfl
      | fault => rfl
    subst nothing
    have link : ∀ i j, after.link i j = before.link i j := by
      intro i j
      obtain ⟨rest, old, new⟩ := turn.link i j
      simp only [received, posted, route, List.filter_nil, List.map_nil, ite_self,
        List.append_nil, List.nil_append] at old new
      exact new.trans old.symm
    have shrinks : (∀ doc ∈ d.store.db, doc ∈ (before.node a).store.db) ∧
        (∀ addr docs, .put addr docs ∈ d.toP2p → .put addr docs ∈ (before.node a).toP2p) ∧
        ∀ docs, .ins docs ∈ d.toDb → .ins docs ∈ (before.node a).toDb := by
      cases acts with
      | move moves => cases moves
      | client done =>
          exact ⟨(clientOp_rm (mirrored a) done).2.2, fun _ _ member => by simpa using member,
            fun _ member => member⟩
      | fault _ _ _ store toDb toP2p =>
          exact ⟨by rw [store]; exact fun _ member => member, fun _ _ member => toP2p.mem member,
            fun _ member => toDb.mem member⟩
    refine ⟨fun i doc member joined leads => ?_, fun i addr docs member e inDocs joined => ?_,
      fun i j docs member e inDocs joined => ?_, fun i docs member e inDocs joined => ?_⟩
    · by_cases here : i = a
      · subst here
        have inAfter : X.sha256 doc.data ∈ hashes X (after.node i).store.db :=
          mem_hashes.mpr ⟨doc, member, rfl⟩
        rw [turn.node_self] at member
        rw [(last.stored i joined doc (shrinks.1 doc member) leads).2] at inAfter
        exact gone inAfter
      · rw [turn.node_other i here] at member
        exact here (last.stored i joined doc member leads).1
    · by_cases here : i = a
      · subst here
        rw [turn.node_self] at member
        exact last.puts i joined addr docs (shrinks.2.1 addr docs member) e inDocs
      · rw [turn.node_other i here] at member
        exact last.puts i joined addr docs member e inDocs
    · rw [link i j] at member
      exact last.docs i j joined docs member e inDocs
    · by_cases here : i = a
      · subst here
        rw [turn.node_self] at member
        exact last.ins i joined docs (shrinks.2.2 docs member) e inDocs
      · rw [turn.node_other i here] at member
        exact last.ins i joined docs member e inDocs
  · cases same

/-- **The last copy of an ad stays removed.** Once a client has removed at `a` the last
copy of the ad with that hash, and while no client adds it again, neither `a` nor any
daemon joined to it by a chain has it in any later state. -/
theorem last_copy_stays_removed {C : Config X ι} {ls₀ ls : List (Label X ι)}
    {before after net : Network ι} {a : ι} {user h : Bytes} {toDelete : List Bytes}
    (start : NetRun C (fun _ _ => True) ls₀ before)
    (last : LastCopy C before a h)
    (removed : step C before (.act a (.client (.rm user toDelete))) = some after)
    (gone : h ∉ hashes X (after.node a).store.db)
    (run : Run (step C) (NotAgain h) after ls net) :
    h ∉ hashes X (net.node a).store.db ∧
      ∀ j, Chain C net a j → h ∉ hashes X (net.node j).store.db := by
  have before_ := mirrored_of_run start
  have startAfter : NetRun C (fun _ _ => True) _ after := start.snoc trivial removed
  have all : (∀ i, Mirrors X (net.node i).store) ∧ Within C net ∧ Forgotten C a h net := by
    refine @Run.invariant _ _ (step C) (NotAgain h) (fun net =>
      (∀ i, Mirrors X (net.node i).store) ∧ Within C net ∧ Forgotten C a h net) _ _ _ run
      ⟨mirrored_of_run startAfter, within_of_run startAfter,
        forgotten_of_removal before_ removed gone last⟩ ?_
    rintro net l net' ⟨mirrored, within, forgotten⟩ notAgain stepped
    refine ⟨mirrored_step mirrored stepped, ?_,
      forgotten_step mirrored within notAgain stepped forgotten⟩
    rcases step_took mirrored stepped with ⟨k, lost, kept, -, rfl⟩ |
      ⟨n, event, input, d, sends, took⟩
    · exact within_restarted within
    · exact took.within within
  obtain ⟨-, within, forgotten⟩ := all
  exact ⟨forgotten.notMem (.refl a), fun j chain => forgotten.notMem (within.chain chain)⟩

omit [DecidableEq ι] in
theorem Handling.notAgain {net : Network ι} {l : Label X ι} (h : Bytes)
    (handling : Handling net l) : NotAgain h net l :=
  fun i _ _ same => absurd same (handling.2 i _)

/-- Two daemons, and an ad that a client adds and removes before they meet. -/
theorem last_copy_stays_removed_pair : ∃ before after net : Network (Fin 2),
    LastCopy (pair true) before 0 (Reference.sha256 (Reference.aliceEntry "1")) ∧
    step (pair true) before (.act 0 (.client (.rm Reference.alice
      [hex (Reference.sha256 (Reference.aliceEntry "1"))]))) = some after ∧
    Run (step (pair true)) (NotAgain (Reference.sha256 (Reference.aliceEntry "1"))) after
      introduction net ∧
    Chain (pair true) net 0 1 ∧
    Reference.sha256 (Reference.aliceEntry "1") ∉ hashes (reference true) (net.node 1).store.db := by
  let h := Reference.sha256 (Reference.aliceEntry "1")
  let add : Event (reference true) := .client (.add Reference.alice [Reference.ad 1])
  let rm : Event (reference true) := .client (.rm Reference.alice [hex h])
  let before := (exec (step (pair true)) (pair true).init [.act 0 add]).get (by decide +kernel)
  let after := (step (pair true) before (.act 0 rm)).get (by decide +kernel)
  let net := (exec (step (pair true)) after introduction).get (by decide +kernel)
  have start : NetRun (pair true) (fun _ _ => True) [.act 0 add] before :=
    .computed _ fun _ _ _ => trivial
  have queued : ∀ i, ∀ rep ∈ (before.node i).toP2p, rep = .new := by decide +kernel
  have nothing : ∀ i j, before.link i j = [] ∧ (before.node i).toDb = [] := by decide +kernel
  have only : ∀ i, ∀ doc ∈ (before.node i).store.db, i = 0 ∧ Reference.sha256 doc.data = h := by
    decide +kernel
  have last : LastCopy (pair true) before 0 h := {
    stored := fun i _ doc member _ => only i doc member
    puts := fun i _ addr docs member => nomatch queued i _ member
    docs := fun i j _ docs member => absurd ((nothing i j).1 ▸ member) List.not_mem_nil
    ins := fun i _ docs member => absurd ((nothing i i).2 ▸ member) List.not_mem_nil }
  have handled : ∀ l ∈ (introduction : List (Label (reference true) (Fin 2))),
      Handling (pair true).init l := by decide +kernel
  have run : Run (step (pair true)) (NotAgain h) after introduction net :=
    .computed _ fun _ l member => (handled l member).anywhere.notAgain h
  have linked : Linked (pair true) net 0 1 := by decide +kernel
  have removed : step (pair true) before (.act 0 rm) = some after := (Option.some_get _).symm
  exact ⟨before, after, net, last, removed, run, .single linked,
    (last_copy_stays_removed start last removed (by decide +kernel) run).2 1 (.single linked)⟩

/-- A removed ad comes back: the second of two daemons has announced it to the first before
the first removes it, and no client does anything afterwards. -/
theorem removed_ad_returns : ∃ (ls₀ ls : List (Label (reference true) (Fin 2)))
    (before after net : Network (Fin 2)),
    NetRun (pair true) (fun _ _ => True) ls₀ before ∧
    step (pair true) before (.act 0 (.client (.rm Reference.alice
      [hex (Reference.sha256 (Reference.aliceEntry "1"))]))) = some after ∧
    Reference.sha256 (Reference.aliceEntry "1") ∈ hashes (reference true) (before.node 0).store.db ∧
    Reference.sha256 (Reference.aliceEntry "1") ∉ hashes (reference true) (after.node 0).store.db ∧
    Run (step (pair true)) Handling after ls net ∧ Quiescent net ∧
    Reference.sha256 (Reference.aliceEntry "1") ∈ hashes (reference true) (net.node 0).store.db := by
  let add : Event (reference true) := .client (.add Reference.alice [Reference.ad 1])
  let rm : Event (reference true) :=
    .client (.rm Reference.alice [hex (Reference.sha256 (Reference.aliceEntry "1"))])
  let ls₀ : List (Label (reference true) (Fin 2)) :=
    List.flatten [introduction, [.act 0 add], answerDb 0, answer 0 1,
      [.deliver 1 0, .act 0 .dbPeerOp], answerDb 0, [.deliver 0 1, .act 1 .dbPeerOp], answerDb 1]
  let ls : List (Label (reference true) (Fin 2)) :=
    List.flatten [answer 1 0, answerDb 0, [.deliver 0 1, .act 1 .dbPeerOp], answerDb 1,
      [.deliver 1 0, .act 0 .dbPeerOp], answerDb 0, answer 0 1, answer 0 1]
  let before := (exec (step (pair true)) (pair true).init ls₀).get (by decide +kernel)
  let after := (step (pair true) before (.act 0 rm)).get (by decide +kernel)
  let net := (exec (guarded (step (pair true)) Handling) after ls).get (by decide +kernel)
  -- one look at the last state, which takes long to compute
  have rest : ∀ i, (∀ j, net.link j i = []) ∧ (net.node i).toDb = [] ∧ (net.node i).toP2p = [] ∧
      (net.node i).p2p.toBcastPeers = false ∧ (net.node i).p2p.toBcastHashes = false ∧
      (net.node i).p2p.toSendDbRequests = false := by decide +kernel
  have quiet : Quiescent net := {
    links := fun i j _ => (rest j).1 i
    toDb := fun i _ => (rest i).2.1
    toP2p := fun i _ => (rest i).2.2.1
    peersFlag := fun i _ => (rest i).2.2.2.1
    hashesFlag := fun i _ => (rest i).2.2.2.2.1
    requestsFlag := fun i _ => (rest i).2.2.2.2.2 }
  exact ⟨ls₀, ls, before, after, net, .computed _ fun _ _ _ => trivial, (Option.some_get _).symm,
    by decide +kernel, by decide +kernel, .checked _, quiet, by decide +kernel⟩

end Piac
