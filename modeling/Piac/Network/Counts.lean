/-
# Network.Counts — the counts the handlers assert

Every message that lists hashes or entries carries their number, and the handlers
assert that it is not zero. Three of the counts are those of a list that was never
empty: a REQ asks for a hash that was announced, a GET repeats a REQ, a DOC repeats a
PUT. The other two are counts of what a filter left:

* an INS lists the entries of a DOC that `my_hashes` lacks, so it is empty when all
  of them have arrived in the meantime (`requests_counted` needs `DocsNew`);
* a PUT lists the entries the database still has, so it is empty when all of them
  have been removed in the meantime (`replies_counted` needs `GetsFound`).
-/
import Piac.Network.Routing

namespace Piac

set_option autoImplicit false

open Piac.Theory.CppString Piac.Theory.Transition Piac.Theory.MessagePassing

universe u

variable {X : Platform} {ι : Type u}

/-! ## Requests -/

/-- Hashes that can be asked for: some, and each of 32 bytes. -/
def Askable (wanted : List Bytes) : Prop :=
  wanted ≠ [] ∧ ∀ h ∈ wanted, h.length = 32

structure Asking (d : Daemon) : Prop where
  pending : ∀ r ∈ d.p2p.dbRequests, Askable r.2
  gets : ∀ addr wanted, .get addr wanted ∈ d.toDb → Askable wanted
  ins : ∀ docs, .ins docs ∈ d.toDb → docs ≠ []
  noAssert : ∀ site, d.fault = some (.assertion site) →
    site ≠ .req ∧ site ≠ .get ∧ site ≠ .dbGetDocs ∧ site ≠ .ins

/-- The messages that list hashes. -/
def AskingMsg : PeerMsg → Prop
  | .hash _ hashes => ∀ h ∈ hashes, h.length = 32
  | .req _ wanted => Askable wanted
  | _ => True

theorem Noted.askable {myHashes wanted : List Bytes} {sender : Bytes} {st st' : P2p}
    (noted : Noted myHashes sender wanted st st') (announced : ∀ h ∈ wanted, h.length = 32)
    (before : ∀ r ∈ st.dbRequests, Askable r.2) (r : Bytes × List Bytes)
    (member : r ∈ st'.dbRequests) : Askable r.2 := by
  refine ⟨?_, fun h inSet => ?_⟩
  · rcases noted.mem r member with old | ⟨-, -, some_⟩
    · exact (before r old).1
    · exact some_
  · rcases (noted.requested r.1 h).mp ⟨r, member, rfl, inSet⟩ with ⟨q, old, -, inOld⟩ | ⟨-, new, -⟩
    · exact (before q old).2 h inOld
    · exact announced h new

theorem Acts.asking {p2pPort : Nat} {d d' : Daemon} {event : Event X} {sends : Sends}
    (acts : Acts p2pPort d event d' sends) (mirrors : Mirrors X d.store) (running : d.fault = none)
    (asking : Asking d) (answers : ∀ m, event = .answerP2p m → AskingMsg m)
    (news : ∀ docs, event = .answerP2p (.doc docs) → unknownDocs X d.store.myHashes docs ≠ []) :
    Asking d' ∧ ∀ a m, (a, m) ∈ sends → AskingMsg m := by
  have sized : ∀ h ∈ d.store.myHashes, h.length = 32 := fun h member =>
    length_of_mem_hashes ((mirrors.same h).mp member)
  have fine : ∀ site, d.fault = some (.assertion site) →
      site ≠ .req ∧ site ≠ .get ∧ site ≠ .dbGetDocs ∧ site ≠ .ins := fun site failed => by
    rw [running] at failed; cases failed
  obtain ⟨pending, gets, ins, -⟩ := asking
  cases acts with
  | move _ => exact ⟨⟨pending, gets, ins, fine⟩, nofun⟩
  | bcastPeers _ _ =>
      refine ⟨⟨pending, gets, ins, fine⟩, fun a m sent => ?_⟩
      obtain ⟨b, -, same⟩ := List.mem_map.mp sent
      cases same
      trivial
  | bcastHashes _ _ =>
      refine ⟨⟨pending, gets, ins, fine⟩, fun a m sent => ?_⟩
      obtain ⟨b, -, same⟩ := List.mem_map.mp sent
      cases same
      exact sized
  | sendDbRequests _ _ _ =>
      refine ⟨⟨nofun, gets, ins, fine⟩, fun a m sent => ?_⟩
      obtain ⟨r, member, same⟩ := List.mem_map.mp sent
      cases same
      exact pending r member
  | recvPeer _ learned => exact ⟨⟨learned.requests ▸ pending, gets, ins, fine⟩, nofun⟩
  | recvHash _ noted => exact ⟨⟨noted.askable (answers _ rfl) pending, gets, ins, fine⟩, nofun⟩
  | recvReq _ _ =>
      refine ⟨⟨pending, fun addr wanted member => ?_, fun docs member => ins docs (by simpa using member),
        fine⟩, nofun⟩
      rcases List.mem_append.mp member with old | new
      · exact gets addr wanted old
      · cases List.mem_singleton.mp new
        exact answers _ rfl
  | recvDoc _ _ =>
      refine ⟨⟨pending, fun addr wanted member => gets addr wanted (by simpa using member),
        fun docs member => ?_, fine⟩, nofun⟩
      rcases List.mem_append.mp member with old | new
      · exact ins docs old
      · cases List.mem_singleton.mp new
        exact news _ rfl
  | answerPut _ _ _ _ =>
      refine ⟨⟨pending, gets, ins, fine⟩, fun a m sent => ?_⟩
      cases List.mem_singleton.mp sent
      trivial
  | answerNew _ _ => exact ⟨⟨pending, gets, ins, fine⟩, nofun⟩
  | get queue _ =>
      exact ⟨⟨pending, fun addr wanted member => gets addr wanted (by simp [queue, member]),
        fun docs member => ins docs (by simp [queue, member]), fine⟩, nofun⟩
  | insKnown queue _ =>
      exact ⟨⟨pending, fun addr wanted member => gets addr wanted (by simp [queue, member]),
        fun docs member => ins docs (by simp [queue, member]), fine⟩, nofun⟩
  | insNew queue _ _ =>
      exact ⟨⟨pending, fun addr wanted member => gets addr wanted (by simp [queue, member]),
        fun docs member => ins docs (by simp [queue, member]), fine⟩, nofun⟩
  | client _ => exact ⟨⟨pending, gets, ins, fine⟩, nofun⟩
  | fault why failed p2p _ toDb _ =>
      refine ⟨⟨by rw [p2p]; exact pending, fun addr wanted member => gets addr wanted (toDb.mem member),
        fun docs member => ins docs (toDb.mem member), fun site failed' => ?_⟩, nofun⟩
      -- what is asserted of a request holds of every request there is
      rw [failed] at failed'
      cases failed'
      cases why with
      | req _ => exact absurd rfl (answers _ rfl).1
      | doc _ => decide
      | put _ _ => decide
      | client _ => decide
      | peerOp member reason =>
          rename_i req
          cases req with
          | get addr wanted =>
              have askable := gets addr wanted member
              rcases reason with ⟨-, ⟨-, empty⟩ | ⟨-, h, inSet, size⟩⟩
              · exact absurd empty askable.1
              · exact absurd (askable.2 h inSet) size
          | ins docs =>
              rcases reason with ⟨-, -, empty⟩ | ⟨impossible, -⟩
              · exact absurd empty (ins docs member)
              · cases impossible

theorem Asking.start (X : Platform) (peers : List Bytes) (db : Database) :
    Asking (.start X peers db) where
  pending _ member := absurd member List.not_mem_nil
  gets _ _ member := absurd member List.not_mem_nil
  ins _ member := absurd member List.not_mem_nil
  noAssert _ failed := by cases failed

variable [DecidableEq ι]

/-- A DOC with at least one entry the daemon lacks. -/
def Brings (X : Platform) (myHashes : List Bytes) : PeerMsg → Prop
  | .doc docs => unknownDocs X myHashes docs ≠ []
  | _ => True

instance (myHashes : List Bytes) : DecidablePred (Brings X myHashes)
  | .doc _ => inferInstanceAs (Decidable (_ ≠ []))
  | .peer _ => .isTrue trivial
  | .hash _ _ => .isTrue trivial
  | .req _ _ => .isTrue trivial

/-- Each DOC that is answered brings at least one entry the daemon lacks. -/
def DocsNew (net : Network ι) (l : Label X ι) : Prop :=
  ∀ src dst, l = .deliver src dst → ∀ m ∈ (net.link src dst).head?,
    Brings X (net.node dst).store.myHashes m

instance (net : Network ι) (l : Label X ι) : Decidable (DocsNew net l) :=
  match l with
  | .act _ _ => .isTrue nofun
  | .restart _ _ _ => .isTrue nofun
  | .deliver src dst =>
      decidable_of_iff (∀ m ∈ (net.link src dst).head?, Brings X (net.node dst).store.myHashes m)
        ⟨fun all _ _ same => by cases same; exact all, fun docsNew => docsNew src dst rfl⟩

theorem asking_of_run {C : Config X ι} {ls : List (Label X ι)} {net : Network ι}
    (run : NetRun C DocsNew ls net) : Everywhere Asking AskingMsg net := by
  refine everywhere_of_run run (fun i db => .start X _ db) ?_
  intro net l net' n event input d sends mirrored everywhere docsNew took
  refine took.acts.asking (mirrored n) took.running (everywhere.daemons n) ?_ ?_
  · rintro m rfl
    exact took.answered everywhere
  · rintro docs rfl
    obtain ⟨src, rfl, rfl, -⟩ := took.source
    obtain ⟨rest, before, -⟩ := took.turn.link src n
    rw [received, if_pos ⟨rfl, rfl⟩] at before
    exact docsNew src n rfl (.doc docs) (by simp [before])

/-- **Requests to the db thread satisfy its assertions**, as long as each DOC that is
answered brings something new: every GET and every INS has a count above zero, so has
every REQ on its way, the hashes of a GET have 32 bytes, and none of the assertions on
requests fails. -/
theorem requests_counted {C : Config X ι} {ls : List (Label X ι)} {net : Network ι}
    (run : NetRun C DocsNew ls net) :
    (∀ i addr wanted, .get addr wanted ∈ (net.node i).toDb →
      0 < wanted.length ∧ ∀ h ∈ wanted, h.length = 32) ∧
    (∀ i docs, .ins docs ∈ (net.node i).toDb → 0 < docs.length) ∧
    (∀ i j addr wanted, .req addr wanted ∈ net.link i j → 0 < wanted.length) ∧
    ∀ i site, (net.node i).fault = some (.assertion site) →
      site ≠ .req ∧ site ≠ .get ∧ site ≠ .dbGetDocs ∧ site ≠ .ins := by
  have asking := asking_of_run run
  refine ⟨fun i addr wanted member => ?_, fun i docs member => ?_, fun i j addr wanted member => ?_,
    fun i => (asking.daemons i).noAssert⟩
  · have askable := (asking.daemons i).gets addr wanted member
    exact ⟨List.length_pos_of_ne_nil askable.1, askable.2⟩
  · exact List.length_pos_of_ne_nil ((asking.daemons i).ins docs member)
  · exact List.length_pos_of_ne_nil (asking.messages i j _ member).1

/-- It applies in a Debug build to two daemons, when the DOC with the ad of the one has
arrived at the other. -/
theorem requests_counted_pair : ∃ ls net, NetRun (pair false) DocsNew ls net ∧
    (net.node 1).toDb ≠ [] ∧ ∀ docs, .ins docs ∈ (net.node 1).toDb → 0 < docs.length := by
  let add : Event (reference false) := .client (.add Reference.alice [Reference.ad 1])
  let ls : List (Label (reference false) (Fin 2)) :=
    List.flatten [introduction, [.act 0 add], answerDb 0, answer 0 1,
      [.deliver 1 0, .act 0 .dbPeerOp], answerDb 0, [.deliver 0 1]]
  have run : NetRun (pair false) DocsNew ls
    ((exec (guarded (step (pair false)) DocsNew) (pair false).init ls).get (by decide +kernel)) :=
      .checked _
  exact ⟨ls, _, run, by decide +kernel, (requests_counted run).2.1 1⟩

/-- A client adds an ad, and adds it again before the other daemon has it. It is announced,
requested and sent twice, and the second time nothing of it is left for the INS. -/
theorem empty_ins : ∃ ls net net', NetRun (pair false) NoRestart ls net ∧
    .ins [] ∈ (net.node 1).toDb ∧ step (pair false) net (.act 1 .dbPeerOp) = some net' ∧
    (net'.node 1).fault = some (.assertion .ins) := by
  let add : Event (reference false) := .client (.add Reference.alice [Reference.ad 1])
  let ls : List (Label (reference false) (Fin 2)) :=
    List.flatten [introduction, [.act 0 add, .act 0 add], answerDb 0, answerDb 0,
      answer 0 1, answer 0 1, [.deliver 1 0, .act 0 .dbPeerOp], answerDb 0,
      [.deliver 1 0, .act 0 .dbPeerOp], answerDb 0,
      [.deliver 0 1, .act 1 .dbPeerOp, .act 1 .pass], round 1, [.deliver 0 1]]
  let net := (exec (guarded (step (pair false)) NoRestart) (pair false).init ls).get
    (by decide +kernel)
  exact ⟨ls, net, _, .checked _, by decide +kernel, (Option.some_get (by decide +kernel)).symm,
    by decide +kernel⟩

/-! ## Replies -/

omit [DecidableEq ι]

structure Replying (d : Daemon) : Prop where
  puts : ∀ addr docs, .put addr docs ∈ d.toP2p → docs ≠ []
  noAssert : ∀ site, d.fault = some (.assertion site) → site ≠ .put ∧ site ≠ .doc

/-- The messages that list entries. -/
def ReplyingMsg : PeerMsg → Prop
  | .doc docs => docs ≠ []
  | _ => True

theorem Acts.replying {p2pPort : Nat} {d d' : Daemon} {event : Event X} {sends : Sends}
    (acts : Acts p2pPort d event d' sends) (running : d.fault = none) (replying : Replying d)
    (answers : ∀ m, event = .answerP2p m → ReplyingMsg m)
    (found : ∀ addr wanted rest, event = .dbPeerOp → d.toDb = .get addr wanted :: rest →
      ∃ h ∈ wanted, h ∈ Piac.hashes X d.store.db) :
    Replying d' ∧ ∀ a m, (a, m) ∈ sends → ReplyingMsg m := by
  have fine : ∀ site, d.fault = some (.assertion site) → site ≠ .put ∧ site ≠ .doc :=
    fun site failed => by rw [running] at failed; cases failed
  obtain ⟨puts, -⟩ := replying
  cases acts with
  | bcastPeers _ _ =>
      refine ⟨⟨puts, fine⟩, fun a m sent => ?_⟩
      obtain ⟨b, -, same⟩ := List.mem_map.mp sent
      cases same
      trivial
  | bcastHashes _ _ =>
      refine ⟨⟨puts, fine⟩, fun a m sent => ?_⟩
      obtain ⟨b, -, same⟩ := List.mem_map.mp sent
      cases same
      trivial
  | sendDbRequests _ _ _ =>
      refine ⟨⟨puts, fine⟩, fun a m sent => ?_⟩
      obtain ⟨r, -, same⟩ := List.mem_map.mp sent
      cases same
      trivial
  | answerPut _ queue _ _ =>
      refine ⟨⟨fun addr docs member => puts addr docs (by simp [queue, member]), fine⟩,
        fun a m sent => ?_⟩
      cases List.mem_singleton.mp sent
      exact puts _ _ (by rw [queue]; exact List.mem_cons_self)
  | answerNew _ queue =>
      exact ⟨⟨fun addr docs member => puts addr docs (by simp [queue, member]), fine⟩, nofun⟩
  | get queue _ =>
      refine ⟨⟨fun addr docs member => ?_, fine⟩, nofun⟩
      rcases List.mem_append.mp member with old | new
      · exact puts addr docs old
      · cases List.mem_singleton.mp new
        obtain ⟨h, inSet, stored⟩ := found _ _ _ rfl queue
        obtain ⟨e, entry⟩ := Option.isSome_iff_exists.mp (entryUnder_isSome.mpr stored)
        exact List.ne_nil_of_mem (List.mem_filterMap.mpr ⟨h, inSet, entry⟩)
  | insNew _ _ _ =>
      exact ⟨⟨fun addr docs member => puts addr docs (by simpa using member), fine⟩, nofun⟩
  | client _ => exact ⟨⟨fun addr docs member => puts addr docs (by simpa using member), fine⟩, nofun⟩
  | fault why failed _ _ _ toP2p =>
      refine ⟨⟨fun addr docs member => puts addr docs (toP2p.mem member), fun site failed' => ?_⟩,
        nofun⟩
      rw [failed] at failed'
      cases failed'
      cases why with
      | req _ => decide
      | doc _ => exact absurd rfl (answers _ rfl)
      | put _ member => exact absurd rfl (puts _ _ member)
      | client _ => decide
      | @peerOp req f _ reason =>
          cases req with
          | get addr wanted => rcases reason with ⟨-, ⟨same, -⟩ | ⟨same, -⟩⟩ <;> cases same <;> decide
          | ins docs => rcases reason with ⟨-, same, -⟩ | ⟨same, -⟩ <;> cases same; decide
  | _ => exact ⟨⟨puts, fine⟩, nofun⟩

theorem Replying.start (X : Platform) (peers : List Bytes) (db : Database) :
    Replying (.start X peers db) where
  puts _ _ member := absurd member List.not_mem_nil
  noAssert _ failed := by cases failed

/-- A GET that asks for at least one hash that is stored. -/
def Finds (X : Platform) (db : Database) : DbReq → Prop
  | .get _ wanted => ∃ h ∈ wanted, h ∈ hashes X db
  | .ins _ => True

instance (db : Database) : DecidablePred (Finds X db)
  | .get _ wanted => inferInstanceAs (Decidable (∃ h ∈ wanted, h ∈ hashes X db))
  | .ins _ => .isTrue trivial

/-- Each GET that is answered asks for at least one hash that is still stored. -/
def GetsFound (net : Network ι) (l : Label X ι) : Prop :=
  ∀ i, l = .act i .dbPeerOp → ∀ req ∈ (net.node i).toDb.head?, Finds X (net.node i).store.db req

instance (net : Network ι) (l : Label X ι) : Decidable (GetsFound net l) :=
  match l with
  | .deliver _ _ => .isTrue nofun
  | .restart _ _ _ => .isTrue nofun
  | .act i .dbPeerOp =>
      decidable_of_iff (∀ req ∈ (net.node i).toDb.head?, Finds X (net.node i).store.db req)
        ⟨fun all _ same => by cases same; exact all, fun found => found i rfl⟩
  | .act _ .bcastPeers => .isTrue nofun
  | .act _ .bcastHashes => .isTrue nofun
  | .act _ .sendDbRequests => .isTrue nofun
  | .act _ (.answerP2p _) => .isTrue nofun
  | .act _ .answerDb => .isTrue nofun
  | .act _ .pass => .isTrue nofun
  | .act _ (.client _) => .isTrue nofun

variable [DecidableEq ι]

theorem replying_of_run {C : Config X ι} {ls : List (Label X ι)} {net : Network ι}
    (run : NetRun C GetsFound ls net) : Everywhere Replying ReplyingMsg net := by
  refine everywhere_of_run run (fun i db => .start X _ db) ?_
  intro net l net' n event input d sends mirrored everywhere found took
  refine took.acts.replying took.running (everywhere.daemons n) ?_ ?_
  · rintro m rfl
    exact took.answered everywhere
  · rintro addr wanted rest rfl queue
    rcases took.label with ⟨rfl, -, -⟩ | ⟨_, _, -, same, -⟩
    · exact found n rfl (.get addr wanted) (by simp [queue])
    · cases same

/-- **Replies of the db thread satisfy the assertions of the p2p thread**, as long as
each GET that is answered asks for something that is still there: every PUT and every
DOC has a count above zero, and neither assertion on them fails. -/
theorem replies_counted {C : Config X ι} {ls : List (Label X ι)} {net : Network ι}
    (run : NetRun C GetsFound ls net) :
    (∀ i addr docs, .put addr docs ∈ (net.node i).toP2p → 0 < docs.length) ∧
    (∀ i j docs, .doc docs ∈ net.link i j → 0 < docs.length) ∧
    ∀ i site, (net.node i).fault = some (.assertion site) → site ≠ .put ∧ site ≠ .doc := by
  have replying := replying_of_run run
  refine ⟨fun i addr docs member => ?_, fun i j docs member => ?_,
    fun i => (replying.daemons i).noAssert⟩
  · exact List.length_pos_of_ne_nil ((replying.daemons i).puts addr docs member)
  · exact List.length_pos_of_ne_nil (replying.messages i j _ member)

/-- It applies in a Debug build to two daemons, when the GET for the ad of the one has been
answered. -/
theorem replies_counted_pair : ∃ ls net, NetRun (pair false) GetsFound ls net ∧
    (net.node 0).toP2p ≠ [] ∧
    ∀ addr docs, .put addr docs ∈ (net.node 0).toP2p → 0 < docs.length := by
  let add : Event (reference false) := .client (.add Reference.alice [Reference.ad 1])
  let ls : List (Label (reference false) (Fin 2)) :=
    List.flatten [introduction, [.act 0 add], answerDb 0, answer 0 1,
      [.deliver 1 0, .act 0 .dbPeerOp]]
  have run : NetRun (pair false) GetsFound ls
    ((exec (guarded (step (pair false)) GetsFound) (pair false).init ls).get (by decide +kernel)) :=
      .checked _
  exact ⟨ls, _, run, by decide +kernel, (replies_counted run).1 0⟩

/-- A client removes an ad after the other daemon has requested it and before the request
reaches the database: nothing is left for the PUT. -/
theorem empty_put : ∃ ls net net', NetRun (pair false) NoRestart ls net ∧
    .put (localhost 65091) [] ∈ (net.node 0).toP2p ∧
    step (pair false) net (.act 0 .answerDb) = some net' ∧
    (net'.node 0).fault = some (.assertion .put) := by
  let add : Event (reference false) := .client (.add Reference.alice [Reference.ad 1])
  let rm : Event (reference false) :=
    .client (.rm Reference.alice [hex (Reference.sha256 (Reference.aliceEntry "1"))])
  let ls : List (Label (reference false) (Fin 2)) :=
    List.flatten [introduction, [.act 0 add], answerDb 0, answer 0 1,
      [.deliver 1 0, .act 0 rm, .act 0 .dbPeerOp], answerDb 0]
  let net := (exec (guarded (step (pair false)) NoRestart) (pair false).init ls).get
    (by decide +kernel)
  exact ⟨ls, net, _, .checked _, by decide +kernel, (Option.some_get (by decide +kernel)).symm,
    by decide +kernel⟩

end Piac
