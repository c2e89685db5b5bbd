/-
# Client.Retries — the two loops of `pirate_send`

`Client.Pirate` has what a call remembers between two polls. Here are its two loops one
step at a time, with the REQ socket they use: it takes one request, hands out one reply
to it, and throws if a second request is sent before that. What the server does is a
function of the polls; what arrives late arrives on a socket that is closed by then, so
it is no reply.

`Bounded` is the invariant of the inner loop and `fuel` what a step uses up;
`pirate_bounded` says how a call ends. `step_poll` relates a turn of the inner loop to
`Pirate.poll`.
-/
import Piac.Client.Pirate

namespace Piac

set_option autoImplicit false

open Piac.Theory.CppString

/-- Where `pirate_send` stands. -/
inductive PirateAt where
  | whileRetries
  | whileExpectReply
  | returned
  /-- A request on a socket that still waits for its reply. -/
  | thrown
  deriving DecidableEq

structure PirateCall where
  place : PirateAt
  retries : Nat
  reply : Bytes
  /-- The sockets made so far; `server` is the last of them. -/
  created : Nat
  /-- `server` has sent a request and not received its reply. -/
  awaiting : Bool
  polls : Nat
  timeouts : Nat
  /-- The sockets `cmd` was sent on, in order. -/
  sends : List Nat
  /-- The replies, with the sockets they came on. -/
  received : List (Nat × Bytes)
  deriving DecidableEq

namespace PirateCall

def start : PirateCall :=
  { place := .whileRetries, retries := requestRetries, reply := [], created := 1,
    awaiting := false, polls := 0, timeouts := 0, sends := [], received := [] }

/-- `server.send( request )`. -/
def send (c : PirateCall) : PirateCall :=
  if c.awaiting then { c with place := .thrown }
  else { c with awaiting := true, sends := c.sends ++ [c.created - 1] }

/-- `server = daemon_socket( … )`. -/
def renew (c : PirateCall) : PirateCall :=
  { c with created := c.created + 1, awaiting := false }

/-- What the next poll sees, if the server has a reply to what was sent. -/
def input (server : Nat → Option Bytes) (c : PirateCall) : Option Bytes :=
  if c.awaiting then server c.polls else none

/-- One turn of the inner loop. -/
def turn (server : Nat → Option Bytes) (c : PirateCall) : PirateCall :=
  match c.input server with
  | some reply =>
      let c := { c with polls := c.polls + 1, reply, awaiting := false,
                        received := c.received ++ [(c.created - 1, reply)] }
      if reply ≠ [] then { c with retries := 0, place := .whileRetries } else c
  | none =>
      let c := { c with polls := c.polls + 1, timeouts := c.timeouts + 1, retries := c.retries - 1 }
      if c.retries = 0 then
        { c with reply := bytes "No response from server", place := .whileRetries }
      else c.renew.send

def step (server : Nat → Option Bytes) (c : PirateCall) : PirateCall :=
  match c.place with
  | .whileRetries =>
      if c.retries ≠ 0 then { c with place := .whileExpectReply }.send
      else { c with place := .returned }
  | .whileExpectReply => c.turn server
  | .returned => c
  | .thrown => c

def run (server : Nat → Option Bytes) : Nat → PirateCall
  | 0 => start
  | n + 1 => (run server n).step server

/-! ## The inner loop -/

/-- In the inner loop: one request on each socket, as many time-outs as retries are gone,
and nothing but empty replies. -/
structure Bounded (c : PirateCall) : Prop where
  place : c.place = .whileExpectReply
  left : 0 < c.retries
  spent : c.timeouts + c.retries = requestRetries
  sockets : c.created = c.timeouts + 1
  once : c.sends = List.range c.created
  empty : ∀ r ∈ c.received, r.2 = []

/-- What the inner loop can still do: two polls for each retry, one if the socket has its
reply already. -/
def fuel (c : PirateCall) : Nat := 2 * c.retries + if c.awaiting then 1 else 0

/-- How a call ends. -/
structure Over (c : PirateCall) : Prop where
  done : c.retries = 0
  sends : c.sends = List.range c.created
  made : 0 < c.created
  sockets : c.created ≤ requestRetries
  timeouts : c.timeouts ≤ requestRetries
  reply : (c.reply = bytes "No response from server" ∧ ∀ r ∈ c.received, r.2 = []) ∨
    c.reply ≠ [] ∧ ∃ before, c.received = before ++ [(c.created - 1, c.reply)] ∧
      ∀ r ∈ before, r.2 = []

variable {server : Nat → Option Bytes} {c : PirateCall}

theorem turn_timeout (missing : c.input server = none) (last : c.retries = 1) :
    c.turn server = { c with polls := c.polls + 1, timeouts := c.timeouts + 1, retries := 0,
                             reply := bytes "No response from server", place := .whileRetries } := by
  simp [turn, missing, last]

theorem turn_retry (missing : c.input server = none) (more : 1 < c.retries) :
    c.turn server = { c with polls := c.polls + 1, timeouts := c.timeouts + 1,
                             retries := c.retries - 1, created := c.created + 1, awaiting := true,
                             sends := c.sends ++ [c.created] } := by
  have left : ¬ c.retries - 1 = 0 := by omega
  simp [turn, missing, left, renew, send]

theorem turn_empty (found : c.input server = some []) :
    c.turn server = { c with polls := c.polls + 1, reply := [], awaiting := false,
                             received := c.received ++ [(c.created - 1, [])] } := by
  simp [turn, found]

theorem turn_reply {reply : Bytes} (found : c.input server = some reply) (some_ : reply ≠ []) :
    c.turn server = { c with polls := c.polls + 1, reply, awaiting := false, retries := 0,
                             received := c.received ++ [(c.created - 1, reply)],
                             place := .whileRetries } := by
  simp [turn, found, some_]

/-- Only a socket with a request out has a reply. -/
theorem awaiting_of_input {reply : Bytes} (found : c.input server = some reply) :
    c.awaiting = true := by
  unfold input at found
  split at found
  · assumption
  · cases found

/-- **A turn goes on with less fuel, or ends the loop.** -/
theorem Bounded.turn (bounded : Bounded c) :
    (Bounded (c.turn server) ∧ (c.turn server).fuel < c.fuel) ∨
      ((c.turn server).place = .whileRetries ∧ Over (c.turn server)) := by
  obtain ⟨place, left, spent, sockets, once, empty⟩ := bounded
  cases found : c.input server with
  | none =>
      by_cases last : c.retries = 1
      · right
        rw [turn_timeout found last]
        refine ⟨rfl, rfl, once, ?_, ?_, ?_, .inl ⟨rfl, empty⟩⟩
        · show 0 < c.created
          omega
        · show c.created ≤ requestRetries
          omega
        · show c.timeouts + 1 ≤ requestRetries
          omega
      · left
        rw [turn_retry found (by omega)]
        refine ⟨⟨place, ?_, ?_, ?_, ?_, empty⟩, ?_⟩
        · show 0 < c.retries - 1
          omega
        · show c.timeouts + 1 + (c.retries - 1) = requestRetries
          omega
        · show c.created + 1 = c.timeouts + 1 + 1
          omega
        · show c.sends ++ [c.created] = List.range (c.created + 1)
          rw [once, List.range_succ]
        · show 2 * (c.retries - 1) + 1 < 2 * c.retries + _
          omega
  | some reply =>
      have awaiting := awaiting_of_input found
      by_cases nothing : reply = []
      · left
        subst nothing
        rw [turn_empty found]
        refine ⟨⟨place, left, spent, sockets, once, ?_⟩, ?_⟩
        · intro r member
          rcases List.mem_append.mp member with old | new
          · exact empty r old
          · rw [List.mem_singleton.mp new]
        · show 2 * c.retries + 0 < 2 * c.retries + if c.awaiting then 1 else 0
          rw [if_pos awaiting]
          omega
      · right
        rw [turn_reply found nothing]
        refine ⟨rfl, rfl, once, ?_, ?_, ?_, .inr ⟨nothing, c.received, rfl, empty⟩⟩
        · show 0 < c.created
          omega
        · show c.created ≤ requestRetries
          omega
        · show c.timeouts ≤ requestRetries
          omega

/-! ## The whole call -/

theorem run_returned {n : Nat} (returned : (run server n).place = .returned) {k : Nat}
    (later : n ≤ k) : run server k = run server n := by
  induction k, later using Nat.le_induction with
  | base => rfl
  | succ k later ih => rw [run, ih, step, returned]

/-- **From the inner loop a call returns as soon as its fuel is used up**, and never throws. -/
theorem Bounded.returns {n : Nat} (bounded : Bounded (run server n)) :
    ∃ k ≤ n + (run server n).fuel, (run server k).place = .returned ∧ Over (run server k) ∧
      ∀ m, n ≤ m → (run server m).place ≠ .thrown := by
  induction fuel : (run server n).fuel using Nat.strong_induction_on generalizing n with
  | _ fuel_ ih =>
      subst fuel
      have next : run server (n + 1) = (run server n).turn server := by
        rw [run, step, bounded.place]
      have here : ∀ m, n ≤ m → m < n + 1 → (run server m).place ≠ .thrown := by
        intro m low high
        have same : m = n := by omega
        rw [same, bounded.place]
        nofun
      rcases (bounded.turn : (Bounded ((run server n).turn server) ∧ _) ∨ _) with
        ⟨again, less⟩ | ⟨place, ended⟩
      · rw [← next] at again less
        obtain ⟨k, bound, returned, ended, safe⟩ := ih _ less again rfl
        refine ⟨k, by omega, returned, ended, fun m low => ?_⟩
        by_cases first : m < n + 1
        · exact here m low first
        · exact safe m (by omega)
      · rw [← next] at place ended
        have last : run server (n + 2) = { run server (n + 1) with place := .returned } := by
          show (run server (n + 1)).step server = _
          simp [step, place, ended.done]
        have returned : (run server (n + 2)).place = .returned := by rw [last]
        have left := bounded.left
        refine ⟨n + 2, ?_, returned, ?_, fun m low => ?_⟩
        · show n + 2 ≤ n + (2 * (run server n).retries + _)
          omega
        · rw [last]
          exact ⟨ended.done, ended.sends, ended.made, ended.sockets, ended.timeouts, ended.reply⟩
        · rcases Nat.lt_or_ge m (n + 1) with first | second
          · exact here m low first
          · rcases Nat.eq_or_lt_of_le second with rfl | third
            · rw [place]
              nofun
            · rw [run_returned returned third, returned]
              nofun

/-- After the first send. -/
theorem bounded_one (server : Nat → Option Bytes) : Bounded (run server 1) where
  place := rfl
  left := show 0 < requestRetries by decide
  spent := rfl
  sockets := rfl
  once := rfl
  empty _ member := nomatch member

/-- **The Lazy Pirate client is bounded**, whatever the server does: a call returns; it has
sent the command once on each of its sockets, at most five in all, and waited out at most
five time-outs; it never sends on a socket that waits for a reply; and it returns the
first reply that is not empty, which came on the socket of the last send, or gives up
after empty replies only. -/
theorem pirate_bounded (server : Nat → Option Bytes) :
    (∃ n ≤ 12, (run server n).place = .returned ∧
      (run server n).sends = List.range (run server n).created ∧
      (run server n).sends.length ≤ requestRetries ∧
      (run server n).timeouts ≤ requestRetries ∧
      (((run server n).reply = bytes "No response from server" ∧
          ∀ r ∈ (run server n).received, r.2 = []) ∨
        (run server n).reply ≠ [] ∧ ∃ before socket,
          (run server n).received = before ++ [(socket, (run server n).reply)] ∧
          (∀ r ∈ before, r.2 = []) ∧ (run server n).sends.getLast? = some socket)) ∧
    ∀ m, (run server m).place ≠ .thrown := by
  obtain ⟨n, bound, returned, ended, safe⟩ := (bounded_one server).returns
  refine ⟨⟨n, bound, returned, ended.sends, ?_, ended.timeouts, ?_⟩, fun m => ?_⟩
  · rw [ended.sends, List.length_range]
    exact ended.sockets
  · refine ended.reply.imp_right ?_
    rintro ⟨some_, before, received, empty⟩
    refine ⟨some_, before, _, received, empty, ?_⟩
    obtain ⟨k, created⟩ := Nat.exists_eq_add_of_le' ended.made
    rw [ended.sends, created, List.range_succ, List.getLast?_concat]
    rfl
  · cases m with
    | zero => nofun
    | succ m => exact safe (m + 1) (by omega)

/-! ## Between two polls -/

/-- What `Client.Pirate` remembers of a call. -/
def remembered (c : PirateCall) : Pirate :=
  match c.place with
  | .whileExpectReply => ⟨c.retries, none⟩
  | _ => if c.retries = 0 then ⟨0, some c.reply⟩ else .start

/-- What the next poll ends in. -/
def nextPoll (server : Nat → Option Bytes) (c : PirateCall) : Poll :=
  match c.input server with
  | some reply => .input reply
  | none => .timeout

/-- **A turn of the inner loop is a poll of `Client.Pirate`**, and it sends the command again
exactly when that does. -/
theorem step_poll (bounded : Bounded c) :
    (c.step server).remembered = (c.remembered.poll (c.nextPoll server)).1 ∧
      ((c.step server).sends ≠ c.sends ↔ (c.remembered.poll (c.nextPoll server)).2 = true) := by
  have place := bounded.place
  have before : c.remembered = ⟨c.retries, none⟩ := by rw [remembered, place]
  have next : c.step server = c.turn server := by rw [step, place]
  rw [before, next]
  cases found : c.input server with
  | none =>
      have polled : c.nextPoll server = .timeout := by rw [nextPoll, found]
      rw [polled]
      by_cases last : c.retries = 1
      · rw [turn_timeout found last]
        simp [remembered, Pirate.poll, last]
      · have more : 1 < c.retries := by
          have left := bounded.left
          omega
        have left : ¬ c.retries - 1 = 0 := by omega
        rw [turn_retry found more]
        simp [remembered, Pirate.poll, left, place]
  | some reply =>
      have polled : c.nextPoll server = .input reply := by rw [nextPoll, found]
      rw [polled]
      by_cases nothing : reply = []
      · subst nothing
        rw [turn_empty found]
        simp [remembered, Pirate.poll, place]
      · rw [turn_reply found nothing]
        simp [remembered, Pirate.poll, nothing]

/-- An empty reply, three that are late, and one that is taken. -/
example : ((run (fun poll => if poll = 0 then some [] else if poll < 4 then none else
    some (bytes "accept")) 7).reply, (run (fun poll => if poll = 0 then some [] else
    if poll < 4 then none else some (bytes "accept")) 7).sends) =
      (bytes "accept", [0, 1, 2, 3]) := by decide

end PirateCall

end Piac
