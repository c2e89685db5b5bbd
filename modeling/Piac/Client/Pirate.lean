/-
# Client.Pirate — how the client reaches the daemon

`daemon_socket` makes a socket: it sets the three keys of CURVE if there is a server
key and connects. `pirate_send` sends a command on such a socket and waits; a poll
that times out makes it send the command again on a new socket, and after five of
them it gives up. `Pirate` is what it remembers between two polls, `pirateSend` a
call with the results of its polls, and `Sent` what was written to which socket.

`sends_secured` says when nothing of a call is sent in clear text although there is
a server key. Each of the three keys must be well-formed: `daemon_socket` catches the
exception of one that is not and connects all the same.
-/
import Piac.Daemon.Curve

namespace Piac

set_option autoImplicit false

open Piac.Theory.CppString

/-! ## Sockets -/

/-- The CURVE options of a socket, as far as they are set. -/
structure CurveKeys where
  serverKey : Option Bytes
  publicKey : Option Bytes
  secretKey : Option Bytes
  deriving DecidableEq

def CurveKeys.set (keys : CurveKeys) (value : Bytes) : CurveOption → CurveKeys
  | .curveServerKey => { keys with serverKey := some value }
  | .curvePublicKey => { keys with publicKey := some value }
  | .curveSecretKey => { keys with secretKey := some value }

/-- A `req` socket. A connection keeps the options that were set when it was made. -/
structure Socket where
  keys : CurveKeys
  connection : Option (Bytes × CurveKeys)
  deriving DecidableEq

def Socket.fresh : Socket := ⟨⟨none, none, none⟩, none⟩

/-- `zmqpp::exception`. -/
inductive ZmqException where
  | option
  | endpoint
  deriving DecidableEq

variable (Z : Curve)

def setOption (option : CurveOption) (value : Bytes) : EStateM ZmqException Socket Unit :=
  if Z.accepts option value then modify fun sock => { sock with keys := sock.keys.set value option }
  else throw .option

def connect (host : Bytes) : EStateM ZmqException Socket Unit :=
  if Z.connects host then modify fun sock => { sock with connection := some (host, sock.keys) }
  else throw .endpoint

/-- `daemon_socket` on the socket it has created. -/
def daemonSocketOp (host rpcServerPublicKey : Bytes) (clientKeys : Keypair) :
    EStateM ZmqException Socket Unit := do
  if rpcServerPublicKey ≠ [] then
    try
      setOption Z .curveServerKey rpcServerPublicKey
      setOption Z .curvePublicKey clientKeys.publicKey
      setOption Z .curveSecretKey clientKeys.secretKey
    catch _ => pure ()
  connect Z host

def daemonSocket (host rpcServerPublicKey : Bytes) (clientKeys : Keypair) :
    Except ZmqException Socket :=
  match (daemonSocketOp Z host rpcServerPublicKey clientKeys).run .fresh with
  | .ok _ sock => .ok sock
  | .error e _ => .error e

/-! ## Lazy Pirate -/

def requestRetries : Nat := 5

/-- What a poll of the socket ends in. -/
inductive Poll where
  | input (reply : Bytes)
  | timeout

/-- `retries`, and the result once the loop is left. -/
structure Pirate where
  retries : Nat
  reply : Option Bytes
  deriving DecidableEq

/-- The command has been sent on the first socket. -/
def Pirate.start : Pirate := ⟨requestRetries, none⟩

/-- One turn of the inner loop; `true` if the command is to be sent again, on a new socket. -/
def Pirate.poll (p : Pirate) : Poll → Pirate × Bool
  | .input reply => if reply ≠ [] then (⟨0, some reply⟩, false) else (p, false)
  | .timeout =>
      if p.retries - 1 = 0 then (⟨0, some (bytes "No response from server")⟩, false)
      else (⟨p.retries - 1, none⟩, true)

/-- What was written, and the sockets as they were then. -/
abbrev Sent := List (Socket × Bytes)

/-- What has been written when an operation is over, or has thrown. -/
def written {α : Type} : EStateM.Result ZmqException Sent α → Sent
  | .ok _ sent => sent
  | .error _ sent => sent

section Call

variable (cmd host rpcServerPublicKey : Bytes) (clientKeys : Keypair)

/-- A new socket, and the command on it. -/
def sendFresh : EStateM ZmqException Sent Unit := do
  match daemonSocket Z host rpcServerPublicKey clientKeys with
  | .ok server => modify fun sent => sent ++ [(server, cmd)]
  | .error e => throw e

/-- The loop of `pirate_send` while there are results of polls. -/
def pirateLoop : Pirate → List Poll → EStateM ZmqException Sent Pirate
  | p, [] => pure p
  | p, result :: results => do
      if p.reply.isSome then return p
      let (p, again) := p.poll result
      if again then sendFresh Z cmd host rpcServerPublicKey clientKeys
      pirateLoop p results

def pirateSend (results : List Poll) : EStateM ZmqException Sent Pirate := do
  sendFresh Z cmd host rpcServerPublicKey clientKeys
  pirateLoop Z cmd host rpcServerPublicKey clientKeys .start results

/-- What a call has sent after these results. -/
def sentBy (results : List Poll) : Sent :=
  written ((pirateSend Z cmd host rpcServerPublicKey clientKeys results).run [])

end Call

variable {Z}

/-! ## The options of a socket -/

variable (Z) in
/-- The options that are set when the exception of a malformed key has been caught. -/
def takenKeys (rpcServerPublicKey : Bytes) (clientKeys : Keypair) : CurveKeys :=
  if rpcServerPublicKey = [] ∨ Z.accepts .curveServerKey rpcServerPublicKey = false then
    ⟨none, none, none⟩
  else if Z.accepts .curvePublicKey clientKeys.publicKey = false then
    ⟨some rpcServerPublicKey, none, none⟩
  else if Z.accepts .curveSecretKey clientKeys.secretKey = false then
    ⟨some rpcServerPublicKey, some clientKeys.publicKey, none⟩
  else ⟨some rpcServerPublicKey, some clientKeys.publicKey, some clientKeys.secretKey⟩

theorem daemonSocket_eq (host rpcServerPublicKey : Bytes) (clientKeys : Keypair) :
    daemonSocket Z host rpcServerPublicKey clientKeys =
      let taken := takenKeys Z rpcServerPublicKey clientKeys
      if Z.connects host = true then .ok ⟨taken, some (host, taken)⟩ else .error .endpoint := by
  unfold daemonSocket daemonSocketOp setOption connect takenKeys
  by_cases unset : rpcServerPublicKey = []
  · cases Z.connects host
    · simp [unset]
    · simp [unset]
      rfl
  · cases Z.accepts .curveServerKey rpcServerPublicKey <;>
      cases Z.accepts .curvePublicKey clientKeys.publicKey <;>
      cases Z.accepts .curveSecretKey clientKeys.secretKey <;>
      cases Z.connects host <;> simp [unset] <;> rfl

/-- The connection was made with the three keys set. -/
def Socket.Secured (sock : Socket) (rpcServerPublicKey : Bytes) (clientKeys : Keypair) : Prop :=
  ∃ host, sock.connection = some (host,
    ⟨some rpcServerPublicKey, some clientKeys.publicKey, some clientKeys.secretKey⟩)

variable (Z) in
/-- ZeroMQ takes each of the three keys. -/
structure WellFormed (rpcServerPublicKey : Bytes) (clientKeys : Keypair) : Prop where
  server : Z.accepts .curveServerKey rpcServerPublicKey = true
  public_ : Z.accepts .curvePublicKey clientKeys.publicKey = true
  secret : Z.accepts .curveSecretKey clientKeys.secretKey = true

theorem secured_iff {host rpcServerPublicKey : Bytes} {clientKeys : Keypair} {sock : Socket}
    (given : rpcServerPublicKey ≠ [])
    (made : daemonSocket Z host rpcServerPublicKey clientKeys = .ok sock) :
    sock.Secured rpcServerPublicKey clientKeys ↔ WellFormed Z rpcServerPublicKey clientKeys := by
  simp only [daemonSocket_eq] at made
  split at made
  case isFalse => cases made
  cases made
  have taken : takenKeys Z rpcServerPublicKey clientKeys = ⟨some rpcServerPublicKey,
      some clientKeys.publicKey, some clientKeys.secretKey⟩ ↔
      WellFormed Z rpcServerPublicKey clientKeys := by
    unfold takenKeys
    constructor
    · intro all
      split at all
      · cases all
      rename_i server
      split at all
      · cases all
      rename_i public_
      split at all
      · cases all
      rename_i secret
      exact ⟨by simpa using (not_or.mp server).2, by simpa using public_, by simpa using secret⟩
    · rintro ⟨server, public_, secret⟩
      simp [given, server, public_, secret]
  rw [← taken]
  constructor
  · rintro ⟨_, same⟩
    exact (Prod.mk.inj (Option.some.inj same)).2
  · intro same
    exact ⟨host, congrArg (fun keys => some (host, keys)) same⟩

/-! ## Everything a call sends -/

section Call

variable {cmd host rpcServerPublicKey : Bytes} {clientKeys : Keypair}

theorem sendFresh_run (sent : Sent) :
    (sendFresh Z cmd host rpcServerPublicKey clientKeys).run sent =
      match daemonSocket Z host rpcServerPublicKey clientKeys with
      | .ok server => .ok () (sent ++ [(server, cmd)])
      | .error e => .error e sent := by
  unfold sendFresh
  cases daemonSocket Z host rpcServerPublicKey clientKeys <;> rfl

/-- Everything is the command on a socket that `daemon_socket` made. -/
theorem pirateLoop_sent {P : Socket × Bytes → Prop}
    (fresh : ∀ server, daemonSocket Z host rpcServerPublicKey clientKeys = .ok server →
      P (server, cmd)) (results : List Poll) (p : Pirate) (sent : Sent) (before : ∀ s ∈ sent, P s) :
    ∀ s ∈ written ((pirateLoop Z cmd host rpcServerPublicKey clientKeys p results).run sent), P s := by
  induction results generalizing p sent with
  | nil => exact before
  | cons result results ih =>
      by_cases answered : p.reply.isSome = true
      · simpa [pirateLoop, answered, written] using before
      cases again : (p.poll result).2 with
      | false => simpa [pirateLoop, answered, again] using ih (p.poll result).1 sent before
      | true =>
          have resent := @sendFresh_run Z cmd host rpcServerPublicKey clientKeys sent
          cases made : daemonSocket Z host rpcServerPublicKey clientKeys with
          | error e =>
              simp only [made] at resent
              simpa [pirateLoop, answered, again, EStateM.run_bind, resent, written] using before
          | ok server =>
              simp only [made] at resent
              have after : ∀ s ∈ sent ++ [(server, cmd)], P s :=
                List.forall_mem_append.mpr ⟨before, List.forall_mem_singleton.mpr (fresh server made)⟩
              simpa [pirateLoop, answered, again, EStateM.run_bind, resent] using
                ih (p.poll result).1 _ after

theorem pirateSend_sent {P : Socket × Bytes → Prop}
    (fresh : ∀ server, daemonSocket Z host rpcServerPublicKey clientKeys = .ok server →
      P (server, cmd)) (results : List Poll) (sent : Sent) (before : ∀ s ∈ sent, P s) :
    ∀ s ∈ written ((pirateSend Z cmd host rpcServerPublicKey clientKeys results).run sent), P s := by
  have first := @sendFresh_run Z cmd host rpcServerPublicKey clientKeys sent
  rw [pirateSend, EStateM.run_bind]
  cases made : daemonSocket Z host rpcServerPublicKey clientKeys with
  | error e =>
      simp only [made] at first
      simpa only [first, written] using before
  | ok server =>
      simp only [made] at first
      simp only [first]
      exact pirateLoop_sent fresh results .start _
        (List.forall_mem_append.mpr ⟨before, List.forall_mem_singleton.mpr (fresh server made)⟩)

theorem mem_sentBy {results : List Poll} {s : Socket × Bytes}
    (sent : s ∈ sentBy Z cmd host rpcServerPublicKey clientKeys results) :
    daemonSocket Z host rpcServerPublicKey clientKeys = .ok s.1 ∧ s.2 = cmd :=
  pirateSend_sent (P := fun s => daemonSocket Z host rpcServerPublicKey clientKeys = .ok s.1 ∧
    s.2 = cmd) (fun _ made => ⟨made, rfl⟩) results [] (fun _ none_ => nomatch none_) s sent

/-- The first send. -/
theorem sentBy_nil {server : Socket}
    (made : daemonSocket Z host rpcServerPublicKey clientKeys = .ok server) :
    sentBy Z cmd host rpcServerPublicKey clientKeys [] = [(server, cmd)] := by
  have first := @sendFresh_run Z cmd host rpcServerPublicKey clientKeys []
  simp only [made] at first
  rw [sentBy, pirateSend, EStateM.run_bind, first]
  rfl

end Call

/-- **Nothing goes out in clear text exactly when the three keys are well-formed**, or the host is
no endpoint, so that there is no connection at all: however often the polls of a call time out. -/
theorem sends_secured (host rpcServerPublicKey : Bytes) (clientKeys : Keypair)
    (given : rpcServerPublicKey ≠ []) :
    (∀ cmd results, ∀ s ∈ sentBy Z cmd host rpcServerPublicKey clientKeys results,
        s.1.Secured rpcServerPublicKey clientKeys) ↔
      Z.connects host = false ∨ WellFormed Z rpcServerPublicKey clientKeys := by
  constructor
  · intro secured
    cases connects : Z.connects host with
    | false => exact .inl rfl
    | true =>
        have made := @daemonSocket_eq Z host rpcServerPublicKey clientKeys
        rw [connects] at made
        have sent := secured [] []
        rw [sentBy_nil made] at sent
        exact .inr ((secured_iff given made).mp (sent _ List.mem_cons_self))
  · intro condition cmd results s sent
    obtain ⟨made, -⟩ := mem_sentBy sent
    rcases condition with nowhere | wellFormed
    · rw [daemonSocket_eq, nowhere] at made
      cases made
    · exact (secured_iff given made).mpr wellFormed

open Reference in
/-- It applies to a call that times out three times. -/
theorem sends_secured_thrice :
    (∀ s ∈ sentBy (referenceCurve true) (bytes "peers") (bytes "localhost:55090") (key 97)
        ⟨key 98, key 99⟩ [.timeout, .timeout, .timeout],
      s.1.Secured (key 97) ⟨key 98, key 99⟩) ∧
    (sentBy (referenceCurve true) (bytes "peers") (bytes "localhost:55090") (key 97)
        ⟨key 98, key 99⟩ [.timeout, .timeout, .timeout]).length = 4 :=
  ⟨(sends_secured _ _ _ (by decide)).mpr
      (.inr ⟨by decide +kernel, by decide +kernel, by decide +kernel⟩) _ _, by decide +kernel⟩

open Reference in
/-- A server key that was cut short, and client keys that were never set: the command goes out
although there is a server key, and no key is set. -/
theorem clear_text : ¬ (∀ s ∈ sentBy (referenceCurve true) (bytes "peers")
      (bytes "localhost:55090") (bytes "Rs:L") ⟨key 98, key 99⟩ [],
      s.1.Secured (bytes "Rs:L") ⟨key 98, key 99⟩) ∧
    ¬ (∀ s ∈ sentBy (referenceCurve true) (bytes "peers") (bytes "localhost:55090") (key 97)
      ⟨[], []⟩ [], s.1.Secured (key 97) ⟨[], []⟩) := by
  constructor
  · intro secured
    obtain ⟨_, impossible⟩ := secured (⟨⟨none, none, none⟩, some (bytes "localhost:55090",
      ⟨none, none, none⟩)⟩, bytes "peers") (by decide +kernel)
    cases impossible
  · intro secured
    obtain ⟨_, impossible⟩ := secured (⟨⟨some (key 97), none, none⟩, some (bytes "localhost:55090",
      ⟨some (key 97), none, none⟩)⟩, bytes "peers") (by decide +kernel)
    cases impossible

end Piac
