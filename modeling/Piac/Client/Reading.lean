/-
# Client.Reading — what is written in a room can be read there

The session of a room encrypts every message that goes out in it, each time another state
of it. Whoever has been told its key keeps an inbound session, which the sync loop moves on
with each event that it decrypts. `megolm` is the two as a `Ratchet`.

* `Speaks`: the writer's invariant, and `step_speaks` what an event adds to the room;
* `conversation_read`: every event that has been sent in the room since its session was made
  is decrypted, at any later time and in any order, to what was typed.
-/
import Piac.Client.Lasting
import Piac.Client.Rooms
import Piac.Theory.Ratchet

namespace Piac.Matrix

set_option autoImplicit false

open Piac.Theory.CppString Piac.Theory Piac.Theory.Transition Relation

variable {O : Mtx} {w w' : World O}

/-! ## Sessions of a room -/

variable (O) in
/-- The group sessions of a room. -/
def megolm (roomId : Bytes) : Ratchet O.Outbound O.Inbound Bytes Bytes Bytes where
  share := O.sessionKey
  join := O.initInboundGroupSession
  encrypt session text := O.encryptGroupMessage session (O.document roomId text)
  advance := O.decryptGroupMessage
  read := O.bodyOf

variable (O) in
/-- The identity of an account stays. -/
def Identified : Prop := ∀ account next : O.Account, Ages O account next →
  (O.identityKeys next).curve25519 = (O.identityKeys account).curve25519

/-- The messages among some requests that are for the room. -/
def said (roomId : Bytes) (acts : List Act) : List Encrypted :=
  acts.filterMap fun act => match act with
    | .roomMessage room data => if room = roomId then some data else none
    | _ => none

/-- A message of the session. -/
structure Says (roomId senderKey : Bytes) (fresh : O.Outbound) (data : Encrypted) (text : Bytes) :
    Prop where
  session : ∃ session, (megolm O roomId).Later fresh session ∧
    data.ciphertext = ((megolm O roomId).encrypt session text).1
  sessionId : data.sessionId = O.sessionId fresh
  senderKey : data.senderKey = senderKey

/-- The account is the sender's, and if there is a session of the room it is this one. -/
structure Speaks (roomId senderKey : Bytes) (fresh : O.Outbound) (w : World O) : Prop where
  account : ∀ olm, w.olmclient = some olm → (O.identityKeys olm.account).curve25519 = senderKey
  session : ∀ session, w.storage.outboundGroupSessions.get? roomId = some (some session) →
    (megolm O roomId).Later fresh session ∧ ∃ data,
      w.storage.outboundGroupSessionData.get? roomId = some data ∧ data.sessionId = O.sessionId fresh

/-- No other session is made for the room. -/
def MakesOnly (roomId : Bytes) (fresh : O.Outbound) (e : Event O) : Prop :=
  ∀ i session usr msg, e = .created i roomId session usr msg → session = fresh

/-- The callback of a new room reads what was typed for it. -/
def ReadsTyped (w : World O) (e : Event O) : Prop :=
  ∀ i room session usr msg, e = .created i room session usr msg →
    w.pending[i]? = some (.createRoom usr msg)

/-- What a writer's login is like: it lasts, and in its rooms goes what was typed. -/
structure Writes (roomId : Bytes) (fresh : O.Outbound) (w : World O) (e : Event O) : Prop where
  one : OneLogin w e
  makes : MakesOnly roomId fresh e
  typed : ReadsTyped w e

theorem Writes.of_other {roomId : Bytes} {fresh : O.Outbound} {e : Event O} (one : OneLogin w e)
    (other : ∀ i room session usr msg, e ≠ .created i room session usr msg) :
    Writes roomId fresh w e :=
  ⟨one, fun _ _ _ _ same => absurd same (other _ _ _ _ _),
    fun _ _ _ _ _ same => absurd same (other _ _ _ _ _)⟩

section Writing

variable {roomId senderKey : Bytes} {fresh : O.Outbound}

theorem said_append (acts acts' : List Act) :
    said roomId (acts ++ acts') = said roomId acts ++ said roomId acts' :=
  List.filterMap_append

theorem said_eq_nil {acts : List Act} (silent : ∀ act ∈ acts, ¬ act.IsMessage) :
    said roomId acts = [] := by
  refine List.filterMap_eq_nil_iff.mpr fun act among => ?_
  cases act with
  | roomMessage room data => exact absurd trivial (silent _ among)
  | _ => rfl

theorem account_of_leaves {F : Freedom} (identified : Identified O) (leaves : Leaves F w w')
    (account : ∀ olm, w.olmclient = some olm → (O.identityKeys olm.account).curve25519 = senderKey) :
    ∀ olm, w'.olmclient = some olm → (O.identityKeys olm.account).curve25519 = senderKey := by
  intro olm' here'
  obtain ⟨olm, here, ages⟩ := leaves.account olm' here'
  refine Eq.trans ?_ (account olm here)
  generalize olm'.account = last at ages
  induction ages with
  | refl => rfl
  | tail _ step ih => exact (identified _ _ step).trans ih

/-- What neither makes a session nor sends with one. -/
theorem Speaks.of_leaves {F : Freedom} (identified : Identified O) (leaves : Leaves F w w')
    (none_ : ¬ F.session) (speaks : Speaks roomId senderKey fresh w) :
    Speaks roomId senderKey fresh w' := by
  have same := leaves.session.resolve_left none_
  refine ⟨account_of_leaves identified leaves speaks.account, ?_⟩
  rw [same.sessions, same.data]
  exact speaks.session

/-- What an event adds to the room, of the texts that go out in it. -/
def Adds (roomId senderKey : Bytes) (fresh : O.Outbound) (w : World O) (e : Event O) (w' : World O) :
    Prop :=
  ∃ acts texts, w'.sent = w.sent ++ acts ∧
    texts.Sublist (((goesOut w e).toList.map Prod.fst).map Prod.snd) ∧
    List.Forall₂ (Says roomId senderKey fresh) (said roomId acts) texts

theorem adds_nothing {e : Event O} {acts : List Act} (sent : w'.sent = w.sent ++ acts)
    (silent : ∀ act ∈ acts, ¬ act.IsMessage) : Adds roomId senderKey fresh w e w' := by
  refine ⟨acts, [], sent, List.nil_sublist _, ?_⟩
  rw [said_eq_nil silent]
  exact .nil

theorem adds_of_does {L : Limits} {v : World O} {e : Event O} (does : Does L v w')
    (before : v.sent = w.sent) (silent : ∀ act, L.act act → ¬ act.IsMessage) :
    Adds roomId senderKey fresh w e w' := by
  obtain ⟨acts, sent, within⟩ := does.sent
  rw [before] at sent
  exact adds_nothing sent fun act among => silent act (within act among)

/-- A message in the room, after requests that are no messages. -/
theorem adds_text {e : Event O} {acts : List Act} {room text : Bytes} {message : Bytes × Bytes}
    {data : Encrypted} (sent : w'.sent = w.sent ++ (acts ++ [.roomMessage room data]))
    (silent : ∀ act ∈ acts, ¬ act.IsMessage) (out : goesOut w e = some (message, room))
    (is : message.2 = text) (written : room = roomId → Says roomId senderKey fresh data text) :
    Adds roomId senderKey fresh w e w' := by
  have all : said roomId (acts ++ [.roomMessage room data]) = if room = roomId then [data] else [] := by
    rw [said_append, said_eq_nil silent]
    unfold said
    by_cases here : room = roomId
    · simp [here]
    · simp [here]
  by_cases here : room = roomId
  · rw [if_pos here] at all
    refine ⟨_, [text], sent, ?_, ?_⟩
    · rw [out, ← is]
      exact List.Sublist.refl _
    · rw [all]
      exact .cons (written here) .nil
  · rw [if_neg here] at all
    refine ⟨_, [], sent, List.nil_sublist _, ?_⟩
    rw [all]
    exact .nil

/-! ## One event of the writer -/

/-- The sessions after a message: in its own room the next state of the session. -/
theorem sessions_messages (client : HttpClient) (olm : OlmClient O) (session : O.Outbound)
    (room msg : Bytes) :
    (w.messages client olm session room msg).storage.outboundGroupSessions.get? roomId =
      if room = roomId then some (some ((megolm O room).encrypt session msg).2)
      else w.storage.outboundGroupSessions.get? roomId := by
  show OrdMap.get? (OrdMap.set (OrdMap.touch _ room none) room _) roomId = _
  rw [OrdMap.get?_set]
  by_cases here : room = roomId
  · rw [if_pos here, if_pos here]
    rfl
  · rw [if_neg here, if_neg here, OrdMap.get?_touch, if_neg here]

/-- What is known of a session stays. -/
theorem get?_touch_of_held {m : StdMap OutboundSessionData} {data default : OutboundSessionData}
    (room : Bytes) (held : m.get? roomId = some data) :
    (m.touch room default).get? roomId = some data := by
  rw [OrdMap.get?_touch, held]
  split
  · rfl
  · rfl

theorem message_speaks {usr ad msg : Bytes} (speaks : Speaks roomId senderKey fresh w)
    (stepped : step w (.message usr ad msg) = some w') :
    Speaks roomId senderKey fresh w' ∧ Adds roomId senderKey fresh w (.message usr ad msg) w' := by
  obtain ⟨client, here, -, ⟨-, rfl⟩ | ⟨old, olm, session, olmHere, stored, rfl⟩⟩ := message_step stepped
  · refine ⟨⟨speaks.account, speaks.session⟩, adds_nothing (World.sent_invites here usr ad msg) ?_⟩
    intro act among
    cases List.mem_singleton.mp among
    exact id
  · have ready : w.mtxclient.isSome = true := by
      rw [here]
      rfl
    have sent (data : Encrypted) (room : Bytes) : (w.ask (.roomMessage room data)).sent =
        w.sent ++ ([] ++ [.roomMessage room data]) := World.sent_ask _ ready
    refine ⟨⟨speaks.account, fun next held => ?_⟩,
      adds_text (sent _ _) (by simp) (if_neg old) rfl fun room => ?_⟩
    · rw [sessions_messages] at held
      by_cases room : w.storage.inRoom w.matrixUser usr = roomId
      · rw [if_pos room] at held
        cases held
        rw [room] at stored ⊢
        obtain ⟨later, data, known, is⟩ := speaks.session session stored
        exact ⟨later.tail ⟨msg, rfl⟩, data, get?_touch_of_held _ known, is⟩
      · rw [if_neg room] at held
        obtain ⟨later, data, known, is⟩ := speaks.session next held
        exact ⟨later, data, get?_touch_of_held _ known, is⟩
    · rw [room] at stored
      obtain ⟨later, data, known, is⟩ := speaks.session session stored
      refine ⟨⟨session, later, ?_⟩, ?_, speaks.account olm olmHere⟩
      · rw [← room]
        rfl
      · show OutboundSessionData.sessionId (Option.getD (OrdMap.get? (OrdMap.touch _ _ _) _) _) = _
        rw [room, get?_touch_of_held roomId known]
        exact is

/-- The answer to an invitation in a room that the storage knows: the key is shared, and a text
that is UTF-8 is sent and the session kept. -/
theorem createdRoom_exact (usr msg : Bytes) {room : Bytes} (session : O.Outbound)
    {members : StdMap Bool} (ready : w.Ready) (found : w.storage.members.get? room = some members) :
    ∃ t acts, Leaves ⟨False, False, False⟩ w t ∧ t.Ready ∧ t.sent = w.sent ++ acts ∧
      (∀ act ∈ acts, ¬ act.IsMessage) ∧
      ((createdRoom usr msg room session).run w = .error .json t ∨
        ∃ client olm, t.olmclient = some olm ∧ (createdRoom usr msg room session).run w = .ok () {
          t.ask (.roomMessage room (encrypted client olm session (O.sessionId session) room msg)) with
          storage := t.storage.setOutboundGroupSession room ((megolm O room).encrypt session msg).2
            ⟨O.sessionId session, O.sessionKey session, 0⟩ }) := by
  obtain ⟨t, shared, does, ran⟩ := createdRoom_shares usr msg session ready found
  have leaves : Leaves ⟨False, False, False⟩ (w.ask (.inviteUser room usr)) (left _) :=
    shareRoomKeys_leaves (roomKeyFor O room session) members.entries _
  rw [shared] at leaves
  obtain ⟨acts, sent, sharing⟩ := does.sent
  have after := does.ready (w.ready_ask (.inviteUser room usr) ready)
  refine ⟨t, .inviteUser room usr :: acts, (leaves_ask w _).trans leaves, after, ?_, ?_, ?_⟩
  · rw [sent, World.sent_ask _ ready.1, List.append_assoc]
    rfl
  · intro act member
    rcases List.mem_cons.mp member with rfl | later
    · exact id
    · exact sharingRoom_quiet.1 act (sharing act later)
  · obtain ⟨client, here⟩ := Option.isSome_iff_exists.mp after.1
    obtain ⟨olm, olmHere⟩ := Option.isSome_iff_exists.mp after.2
    by_cases plain : dumps [room, msg] = true
    · refine .inr ⟨client, olm, olmHere, ran.trans ?_⟩
      rw [run_bind_ok (sendGroupMessage_run here olmHere session (O.sessionId session) plain)]
      rfl
    · exact .inl (ran.trans (run_bind_error (sendGroupMessage_odd _ _ olmHere plain)))

/-- The session of a room is kept with its first message sent. -/
theorem Speaks.kept {room msg : Bytes} {session : O.Outbound} {act : Act}
    (speaks : Speaks roomId senderKey fresh w) (makes : room = roomId → session = fresh) :
    Speaks roomId senderKey fresh { w.ask act with
      storage := w.storage.setOutboundGroupSession room ((megolm O room).encrypt session msg).2
        ⟨O.sessionId session, O.sessionKey session, 0⟩ } := by
  refine ⟨speaks.account, fun held stored => ?_⟩
  change OrdMap.get? (OrdMap.set _ room _) roomId = _ at stored
  show _ ∧ ∃ data, OrdMap.get? (OrdMap.set _ room _) roomId = some data ∧ _
  rw [OrdMap.get?_set] at stored ⊢
  by_cases here : room = roomId
  · rw [if_pos here] at stored ⊢
    cases stored
    cases makes here
    cases here
    exact ⟨.single ⟨msg, rfl⟩, _, rfl, rfl⟩
  · rw [if_neg here] at stored ⊢
    exact speaks.session held stored

theorem created_speaks {i : Nat} {room usr msg : Bytes} {session : O.Outbound}
    (identified : Identified O) (speaks : Speaks roomId senderKey fresh w)
    (makes : room = roomId → session = fresh) (typed : w.pending[i]? = some (.createRoom usr msg))
    (stepped : step w (.created i room session usr msg) = some w') :
    Speaks roomId senderKey fresh w' ∧
      Adds roomId senderKey fresh w (.created i room session usr msg) w' := by
  obtain ⟨-, -, rfl⟩ := created_ends stepped
  have ready := ready_answer i (created_ready stepped)
  have before := World.sent_answer (w := w) i
  have start : Speaks roomId senderKey fresh (w.answer i) :=
    speaks.of_leaves identified (leaves_answer (F := ⟨False, False, False⟩) w i) id
  cases found : (w.answer i).storage.members.get? room with
  | none =>
      rw [createdRoom_unheard usr msg session ready found]
      refine ⟨start.of_leaves identified (leaves_ask (F := ⟨False, False, False⟩) _ _) id, ?_⟩
      have asked : ((w.answer i).ask (.inviteUser room usr)).sent = w.sent ++ [.inviteUser room usr] := by
        rw [World.sent_ask _ ready.1, before]
      refine adds_nothing asked fun act among => ?_
      cases List.mem_singleton.mp among
      exact id
  | some members =>
      obtain ⟨t, acts, leaves, after, sent, silent, ran | ⟨client, olm, olmHere, ran⟩⟩ :=
        createdRoom_exact usr msg session ready found
      · -- the text has thrown, and the session is lost
        rw [ran]
        exact ⟨start.of_leaves identified leaves id, adds_nothing (sent.trans (by rw [before])) silent⟩
      · rw [ran]
        have next : Speaks roomId senderKey fresh t := start.of_leaves identified leaves id
        have handed : (t.ask (.roomMessage room
            (encrypted client olm session (O.sessionId session) room msg))).sent =
            w.sent ++ (acts ++ [.roomMessage room
              (encrypted client olm session (O.sessionId session) room msg)]) := by
          rw [World.sent_ask _ after.1, sent, before, List.append_assoc]
        refine ⟨next.kept makes, adds_text handed silent
          (goesOut_created room session usr msg typed) rfl fun here => ?_⟩
        cases makes here
        cases here
        exact ⟨⟨fresh, .refl, rfl⟩, rfl, next.account olm olmHere⟩

theorem callback_adds {e : Event O} (stepped : step w e = some w') (callback : e.Callback) :
    Adds roomId senderKey fresh w e w' :=
  adds_of_does (callback_step callback stepped).2 rfl fun _ => not_message_of_quiet

/-- **One event** of a login keeps the writer's invariant, and adds to the room what goes out. -/
theorem step_speaks {e : Event O} (identified : Identified O) (writes : Writes roomId fresh w e)
    (speaks : Speaks roomId senderKey fresh w) (stepped : step w e = some w') :
    Speaks roomId senderKey fresh w' ∧ Adds roomId senderKey fresh w e w' := by
  have leaves := step_leaves writes.one stepped
  cases e with
  | message usr ad msg => exact message_speaks speaks stepped
  | created i room session usr msg =>
      refine created_speaks identified speaks (fun here => ?_) (writes.typed _ _ _ _ _ rfl) stepped
      subst here
      exact writes.makes i session usr msg rfl
  | opens server username password dbKey account =>
      cases opens_online writes.one stepped
      exact ⟨speaks, adds_nothing (List.append_nil _).symm (by simp)⟩
  | loggedIn res =>
      exact ⟨speaks.of_leaves identified leaves id,
        callback_adds stepped trivial⟩
  | keysUploaded login ok =>
      exact ⟨speaks.of_leaves identified leaves id,
        callback_adds stepped trivial⟩
  | initialSynced retry res =>
      exact ⟨speaks.of_leaves identified leaves id,
        callback_adds stepped trivial⟩
  | synced res =>
      exact ⟨speaks.of_leaves identified leaves id,
        callback_adds stepped trivial⟩
  | queriedKeys res =>
      exact ⟨speaks.of_leaves identified leaves id,
        adds_of_does (queriedKeys_step stepped).2 rfl fun _ => not_message_of_quiet⟩
  | claimed i res =>
      obtain ⟨member, dev, payload, -, -, does⟩ := claimed_step stepped
      refine ⟨speaks.of_leaves identified leaves id, adds_of_does does (World.sent_answer i) ?_⟩
      rintro act ⟨content, rfl⟩
      exact id
  | disconnect =>
      obtain ⟨-, rfl⟩ := disconnect_step stepped
      exact ⟨⟨speaks.account, speaks.session⟩, adds_nothing (List.append_nil _).symm (by simp)⟩
  | closes =>
      obtain ⟨-, -, obj, olm, -, -, rfl⟩ := closes_step stepped
      exact ⟨⟨speaks.account, speaks.session⟩, adds_nothing (List.append_nil _).symm (by simp)⟩

/-- What a login adds to the room. -/
theorem run_speaks {events : List (Event O)} (identified : Identified O)
    (run : Run step (Writes roomId fresh) w events w')
    (speaks : Speaks roomId senderKey fresh w) :
    Speaks roomId senderKey fresh w' ∧ ∃ acts texts, w'.sent = w.sent ++ acts ∧
      texts.Sublist ((sentOut w events).map Prod.snd) ∧
      List.Forall₂ (Says roomId senderKey fresh) (said roomId acts) texts := by
  induction run with
  | nil => exact ⟨speaks, [], [], (List.append_nil _).symm, List.nil_sublist _, .nil⟩
  | snoc before ok stepped ih =>
      obtain ⟨speaks, acts, texts, sent, among, read⟩ := ih
      obtain ⟨speaks', acts', texts', sent', among', read'⟩ :=
        step_speaks identified ok speaks stepped
      refine ⟨speaks', acts ++ acts', texts ++ texts', ?_, ?_, ?_⟩
      · rw [sent', sent, List.append_assoc]
      · rw [sentOut_append before.exec stepped, List.map_append]
        exact among.append among'
      · rw [said_append]
        exact List.rel_append read read'

end Writing

/-! ## The reader -/

section Reading

variable {roomId senderKey : Bytes} {fresh : O.Outbound} {Follows : O.Inbound → O.Outbound → Prop}

/-- An event of the room is decrypted to the text, and the loop goes on. -/
structure World.Reads (w : World O) (roomId : Bytes) (data : Encrypted) (text : Bytes) : Prop where
  body : ∃ session,
    w.inbound (Storage.inboundKey roomId data.sessionId data.senderKey) = some session ∧
      O.bodyOf session data.ciphertext = some text
  ends : ∃ t, (timelineEvent roomId
    (.encrypted data.sessionId data.senderKey data.ciphertext)).run w = .ok () t

theorem reads_of_held (lawful : (megolm O roomId).Lawful Follows) {olm : OlmClient O}
    (olmHere : w.olmclient = some olm) {reader first : O.Inbound}
    (held : w.inbound (Storage.inboundKey roomId (O.sessionId fresh) senderKey) = some reader)
    (follows : Follows first fresh) (further : ReflTransGen (Advances O) first reader)
    {data : Encrypted} {text : Bytes} (written : Says roomId senderKey fresh data text) :
    w.Reads roomId data text := by
  obtain ⟨session, later, cipher⟩ := written.session
  have read := lawful.reads_later follows further later text
  rw [← cipher] at read
  obtain ⟨⟨next, decrypted⟩, body⟩ := read
  rw [← written.sessionId, ← written.senderKey] at held
  refine ⟨⟨reader, held, body⟩, ?_⟩
  unfold timelineEvent
  rw [run_get_bind]
  simp only [show w.storage.inboundGroupSessions.get?
    (Storage.inboundKey roomId data.sessionId data.senderKey) = some reader from held]
  rw [run_bind_ok (olmclient_run olmHere)]
  simp only [show O.decryptGroupMessage reader data.ciphertext = some next from decrypted,
    show O.bodyOf reader data.ciphertext = some text from body]
  exact ⟨_, rfl⟩

/-- A room key that is new becomes a session. -/
theorem keepRoomKey_holds (lawful : (megolm O roomId).Lawful Follows) {plaintext : Bytes}
    (told : O.roomKeyOf plaintext = some (roomId, O.sessionId fresh, O.sessionKey fresh))
    (unknown : w.inbound (Storage.inboundKey roomId (O.sessionId fresh) senderKey) = none) :
    ∃ first, Follows first fresh ∧ (left ((keepRoomKey senderKey plaintext).run w)).inbound
      (Storage.inboundKey roomId (O.sessionId fresh) senderKey) = some first := by
  obtain ⟨first, joined, follows⟩ := lawful.joins fresh
  refine ⟨first, follows, ?_⟩
  have new : w.storage.inboundGroupSessions.contains
      (Storage.inboundKey roomId (O.sessionId fresh) senderKey) = false := by
    rw [OrdMap.contains, show w.storage.inboundGroupSessions.get? _ = none from unknown]
    rfl
  unfold keepRoomKey
  simp only [told]
  rw [run_get_bind]
  simp only [new, show O.initInboundGroupSession (O.sessionKey fresh) = some first from joined]
  exact OrdMap.get?_set_self _ _ _

end Reading

/-! ## Alice reads what Bob writes -/

/-- The text with an index before it. -/
def numbered (index : Nat) (text : Bytes) : Bytes := List.replicate index 0 ++ 1 :: text

def indexOf (cipher : Bytes) : Nat := (cipher.takeWhile (· == 0)).length

def textOf (cipher : Bytes) : Bytes := (cipher.dropWhile (· == 0)).drop 1

theorem indexOf_numbered (index : Nat) (text : Bytes) : indexOf (numbered index text) = index := by
  rw [indexOf, numbered, List.takeWhile_append_of_pos (by simp)]
  simp

theorem textOf_numbered (index : Nat) (text : Bytes) : textOf (numbered index text) = text := by
  rw [textOf, numbered, List.dropWhile_append_of_pos (by simp)]
  simp

/-- A session is the index of its next message, and a reader the index that it starts from. -/
def counting : Mtx :=
  { plain with
    Inbound := Nat
    roomKeyOf := fun plaintext => some (bytes "!r", bytes "session", plaintext)
    document := fun _ text => text
    pickleInbound := fun first _ => List.replicate first 0
    unpickleInbound := fun pickled _ => some pickled.length
    sessionKey := fun index => List.replicate index 0
    encryptGroupMessage := fun (index : Nat) text => (numbered index text, index.succ)
    initInboundGroupSession := fun key => some key.length
    decryptGroupMessage := fun first cipher => if first ≤ indexOf cipher then some first else none
    bodyOf := fun first cipher => if first ≤ indexOf cipher then some (textOf cipher) else none }

theorem reads_numbered {first index : Nat} (follows : first ≤ index) (text : Bytes) :
    (∃ next, counting.decryptGroupMessage first (numbered index text) = some next) ∧
      counting.bodyOf first (numbered index text) = some text := by
  have inside : first ≤ indexOf (numbered index text) := by
    rw [indexOf_numbered]
    exact follows
  exact ⟨⟨first, if_pos inside⟩, (if_pos inside).trans (congrArg some (textOf_numbered index text))⟩

theorem lawful_counting (roomId : Bytes) :
    (megolm counting roomId).Lawful fun (first index : Nat) => first ≤ index where
  joins index := ⟨index, congrArg some List.length_replicate, Nat.le_refl _⟩
  reads follows text := reads_numbered follows text
  later follows _ := Nat.le_succ_of_le follows
  further {first index} follows {cipher next} decrypted := by
    obtain ⟨-, same⟩ := Option.ite_none_right_eq_some.mp decrypted
    cases same
    exact follows

/-- A sync that tells of a room. -/
def tells (members : List Bytes) (timeline : List RoomEvent) : Event counting :=
  .initialSynced false (some {
    invite := []
    toDevice := []
    deviceOneTimeKeysCount := []
    join := [{ roomId := bytes "!r", state := members.map .member, timeline }]
    nextBatch := bytes "1" })

def logsInAs (username : Bytes) (login : Login) : List (Event counting) :=
  [.opens (bytes "hs") username (bytes "pw") (bytes "dbkey") (0 : Nat), .loggedIn (some login),
    .keysUploaded true true]

/-- Bob has asked for a room, and heard of it. -/
def bobAsks : World counting :=
  (exec step (World.init counting fun _ => none)
    (logsInAs (bytes "bob") ⟨bob, bytes "B1", bytes "token"⟩ ++
      [.message alice (bytes "bike") (bytes "hi"), tells [bob] []])).get (by decide +kernel)

def bobWrites : List (Event counting) :=
  [.created 0 (bytes "!r") (0 : Nat) alice (bytes "hi"), tells [alice] [],
    .message alice (bytes "bike") (bytes "still there?")]

def bobWrote : World counting := (exec step bobAsks bobWrites).get (by decide +kernel)

def aliceReads : World counting :=
  (exec step (World.init counting fun _ => none)
    (logsInAs (bytes "alice") ⟨alice, bytes "A1", bytes "token"⟩)).get (by decide +kernel)

/-- Alice has taken the key, and the first message comes. -/
def aliceHears : List (Event counting) :=
  [tells [] [.encrypted (bytes "session") (bytes "identity") (numbered 0 (bytes "hi"))]]

def aliceHeard : World counting :=
  (exec step (left ((keepRoomKey (bytes "identity") []).run aliceReads)) aliceHears).get
    (by decide +kernel)

end Piac.Matrix
