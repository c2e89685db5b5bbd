/-
# Network.Startup — daemons that need no `--peer`

`main` starts with a default port for peers, and `p2p_thread` probes upward from it and
takes every default port below the one it has bound for a peer. So of two daemons on a
host that looked for their ports from the same default on, the one with the higher port
starts with the other as a peer, whatever else is bound there and in whatever order they
were started (`Probed.peered`): the daemons of a host are one component
(`Probed.chain`), and converge without being told of each other (`zero_configuration`).
-/
import Piac.Daemon.Ports
import Piac.Network.Convergence

namespace Piac

set_option autoImplicit false

open Piac.Theory.CppString Piac.Theory.Transition

universe u

/-! ## The ports of `main` -/

/-- The options of `main` that name a port, with what `atoi` makes of it. -/
inductive PortOption where
  | rpcBindPort (port : Int)
  | p2pBindPort (port : Int)
  deriving DecidableEq

/-- The variables of `main` that these options set. -/
structure PortOptions where
  rpcPort : Int
  defaultP2pPort : Int
  p2pPort : Int
  useStrictPorts : Bool
  deriving DecidableEq

namespace PortOptions

def default : PortOptions :=
  { rpcPort := 55090, defaultP2pPort := 65090, p2pPort := 65090, useStrictPorts := false }

/-- One turn of the loop over the command line. Either option makes both ports strict. -/
def set (o : PortOptions) : PortOption → PortOptions
  | .rpcBindPort port => { o with rpcPort := port, useStrictPorts := true }
  | .p2pBindPort port =>
      { o with defaultP2pPort := port, p2pPort := port, useStrictPorts := true }

def read (options : List PortOption) : PortOptions := options.foldl set default

/-- Probing starts at the default port. -/
theorem p2pPort_read (options : List PortOption) :
    (read options).p2pPort = (read options).defaultP2pPort := by
  have kept : ∀ o : PortOptions, o.p2pPort = o.defaultP2pPort →
      (options.foldl set o).p2pPort = (options.foldl set o).defaultP2pPort := by
    induction options with
    | nil => exact fun _ same => same
    | cons option rest ih =>
        intro o same
        refine ih (o.set option) ?_
        cases option with
        | rpcBindPort _ => exact same
        | p2pBindPort _ => rfl
  exact kept default rfl

end PortOptions

def BindEnd.port : BindEnd → Option Int
  | .bound port => some port
  | _ => none

theorem BindEnd.port_eq_some {how : BindEnd} {port : Int} :
    how.port = some port ↔ how = .bound port := by
  cases how <;> simp [BindEnd.port]

/-- The port of the router, if `try_bind` binds one; `binds` says on which ports `bind`
succeeds. -/
def boundP2pPort (binds : Int → Bool) (o : PortOptions) : Option Int :=
  (tryBind binds o.p2pPort 10 o.useStrictPorts).2.port

/-- A port that is bound was free, and is the default port or above it. -/
theorem boundP2pPort_spec {binds : Int → Bool} {options : List PortOption} {port : Int}
    (bound : boundP2pPort binds (.read options) = some port) :
    (PortOptions.read options).defaultP2pPort ≤ port ∧ binds port = true := by
  have ended := BindEnd.port_eq_some.mp bound
  rw [← PortOptions.p2pPort_read options]
  unfold tryBind at ended
  split at ended
  · -- `--rpc-bind-port` or `--p2p-bind-port`: this port or none
    dsimp only at ended
    split at ended
    · rename_i free
      cases ended
      exact ⟨Int.le_refl _, free⟩
    · cases ended
  · obtain ⟨-, spec, -⟩ := bindLoop_spec binds (show (1 : Int) ≤ 10 by decide)
      (PortOptions.read options).p2pPort
    exact ⟨(spec port ended).1.1, (spec port ended).1.2.1⟩

/-! ## The daemons of a host -/

variable {X : Platform} {ι : Type u}

/-- Each daemon has found its port by itself, from the common default on; what else was bound
when it looked is its own matter. -/
structure Probed (C : Config X ι) (options : ι → List PortOption) (binds : ι → Int → Bool) :
    Prop where
  default : ∀ i, (PortOptions.read (options i)).defaultP2pPort = C.defaultP2pPort
  bound : ∀ i, boundP2pPort (binds i) (.read (options i)) = some (C.port i : Int)

namespace Probed

variable {C : Config X ι} {options : ι → List PortOption} {binds : ι → Int → Bool}

/-- **Of two daemons the one with the higher port starts with the other as a peer.** -/
theorem peered (probed : Probed C options binds) {i j : ι} (below : C.port i < C.port j) :
    Knows C C.init j i := by
  have low := (boundP2pPort_spec (probed.bound i)).1
  rw [probed.default i] at low
  exact mem_initialPeers.mpr (.inr ⟨C.port i, by omega, below, rfl⟩)

theorem linked (probed : Probed C options binds) {i j : ι} (apart : i ≠ j) :
    Linked C C.init i j := by
  refine ⟨rfl, rfl, ?_⟩
  rcases Nat.lt_or_gt_of_ne (C.port_injective.ne apart) with below | above
  · exact .inr (probed.peered below)
  · exact .inl (probed.peered above)

theorem chain (probed : Probed C options binds) (i j : ι) : Chain C C.init i j := by
  by_cases same : i = j
  · exact same ▸ .refl
  · exact .single (probed.linked same)

end Probed

/-- **Daemons on one host need no configuration**: without a `--peer`, those that have probed for
their ports from the same default on converge to one peer list and one database. Whatever
clients have added, and however the threads are scheduled from then on, in every state at rest
everybody knows everybody and has what was stored at the start or added at any of them. -/
theorem zero_configuration [DecidableEq ι] [Fintype ι] {C : Config X ι}
    {options : ι → List PortOption} {binds : ι → Int → Bool} (probed : Probed C options binds)
    (release : X.ndebug = true) (canonical : ∀ i, ∀ doc ∈ C.db i, Canonical X doc.data)
    {ls ms : List (Label X ι)} {net net' : Network ι} (run : NetRun C AddsOnly ls net)
    (handled : Run (step C) Handling net ms net') (stuck : Stuck (step C) Handling net') :
    (∀ i j, i ≠ j → Knows C net' i j) ∧
    ∀ i h, h ∈ hashes X (net'.node i).store.db ↔ ∃ k, Contributed C ls k h := by
  have converged := converged_of_stuck release canonical run handled stuck
  refine ⟨fun i j apart => converged.acquainted i j apart (probed.chain i j), fun i h => ?_⟩
  rw [converged.union]
  exact exists_congr fun k => and_iff_right (probed.chain i k)

/-- The default port is in use when the second daemon looks for its port. -/
def secondFindsUsed (i : Fin 2) (port : Int) : Bool := decide (i.val = 0 ∨ port ≠ 65090)

theorem probed_pair : Probed (pair true) (fun _ => []) secondFindsUsed := by
  refine ⟨fun _ => rfl, fun i => ?_⟩
  have first : FirstFree (secondFindsUsed i) 65090 (65090 + (i : Nat)) := by
    refine ⟨by omega, decide_eq_true (by omega), fun x low high => decide_eq_false ?_⟩
    omega
  have ended : tryBind (secondFindsUsed i) 65090 10 false = _ :=
    bindLoop_bound (by decide) (by decide) first (.inr (by omega))
  refine BindEnd.port_eq_some.mpr ?_
  exact congrArg Prod.snd ended

theorem zero_configuration_pair : ∃ net ms net', NetRun (pair true) AddsOnly [] net ∧
    Run (step (pair true)) Handling net ms net' ∧ Stuck (step (pair true)) Handling net' ∧
    Knows (pair true) net' 0 1 ∧ Knows (pair true) net' 1 0 := by
  have run : NetRun (pair true) AddsOnly [] (pair true).init := .nil
  obtain ⟨ms, net', handled, stuck⟩ := exists_stuck (canonical_terminates pair_canonical run)
  have all := (zero_configuration probed_pair rfl pair_canonical run handled stuck).1
  exact ⟨_, ms, net', run, handled, stuck, all 0 1 (by decide), all 1 0 (by decide)⟩

end Piac
