/-
# Daemon.Ports — the ports a daemon tries to bind to

`try_bind` counts its port up and compares it with `port+range`, so with a bound that
moves along: the loop goes on until a port can be bound, or until the `int` has no
room for the comparison, and the message after it is never reached.

* `tryBind_spec`: what the loop ends in, by the first free port from the start on.
* `probing_in_range`: it stays below the range exactly when the range has a free port.
* `initialPeers_length`: where it does, fewer than `range` default ports become peers.
-/
import Piac.Daemon.P2pThread

namespace Piac

set_option autoImplicit false

open Piac.Theory.CppString

/-- The value of an `int`. -/
def FitsInt (n : Int) : Prop := -2 ^ 31 ≤ n ∧ n < 2 ^ 31

instance (n : Int) : Decidable (FitsInt n) := inferInstanceAs (Decidable (_ ∧ _))

/-- How `try_bind` ends. -/
inductive BindEnd where
  | bound (port : Int)
  /-- Past the loop, with the message that no port could be bound. -/
  | notBound (port : Int)
  /-- An exception of `bind`. -/
  | thrown
  /-- Signed overflow. -/
  | overflow
  deriving DecidableEq

/-- The loop of `try_bind`: the ports it attempts and how it ends. -/
def bindLoop (binds : Int → Bool) (range port : Int) : List Int × BindEnd :=
  if binds port then ([port], .bound port)
  else
    -- ++port
    if fits : FitsInt (port + 1) then
      -- port < port+range
      if FitsInt (port + 1 + range) then
        if port + 1 < port + 1 + range then
          let (attempts, how) := bindLoop binds range (port + 1)
          (port :: attempts, how)
        else ([port], .notBound (port + 1))
      else ([port], .overflow)
    else ([port], .overflow)
termination_by (2 ^ 31 - port).toNat
decreasing_by
  have room := fits.2
  omega

/-- `try_bind`, where `binds` says on which ports `bind` succeeds. -/
def tryBind (binds : Int → Bool) (port range : Int) (useStrictPorts : Bool) :
    List Int × BindEnd :=
  if useStrictPorts then ([port], if binds port then .bound port else .thrown)
  else bindLoop binds range port

/-! ## One attempt -/

variable {binds : Int → Bool} {range port : Int}

theorem bindLoop_free (free : binds port = true) :
    bindLoop binds range port = ([port], .bound port) := by
  rw [bindLoop, if_pos free]

theorem bindLoop_used (used : binds port = false) (fits : FitsInt (port + 1))
    (fits' : FitsInt (port + 1 + range)) (some_ : 1 ≤ range) :
    bindLoop binds range port =
      (port :: (bindLoop binds range (port + 1)).1, (bindLoop binds range (port + 1)).2) := by
  have more : port + 1 < port + 1 + range := by omega
  rw [bindLoop, if_neg (by simp [used]), dif_pos fits, if_pos fits', if_pos more]

/-! ## Ports in a row -/

/-- So many ports from that one on. -/
def portsFrom : Int → Nat → List Int
  | _, 0 => []
  | port, n + 1 => port :: portsFrom (port + 1) n

@[simp] theorem length_portsFrom (port : Int) (n : Nat) : (portsFrom port n).length = n := by
  induction n generalizing port with
  | zero => rfl
  | succ n ih => rw [portsFrom, List.length_cons, ih]

theorem mem_portsFrom {port x : Int} {n : Nat} :
    x ∈ portsFrom port n ↔ port ≤ x ∧ x < port + n := by
  induction n generalizing port with
  | zero => simp [portsFrom]
  | succ n ih =>
      simp only [portsFrom, List.mem_cons, ih]
      omega

theorem portsFrom_increasing (port : Int) (n : Nat) : (portsFrom port n).Pairwise (· < ·) := by
  induction n generalizing port with
  | zero => exact .nil
  | succ n ih =>
      refine .cons (fun x member => ?_) (ih (port + 1))
      have low := (mem_portsFrom.mp member).1
      omega

/-! ## The whole loop -/

/-- The first port from `port` on that can be bound. -/
def FirstFree (binds : Int → Bool) (port q : Int) : Prop :=
  port ≤ q ∧ binds q = true ∧ ∀ x, port ≤ x → x < q → binds x = false

/-- The comparisons up to that port stay in the range of `int`. -/
def Reaches (range port q : Int) : Prop := q = port ∨ q + range < 2 ^ 31

/-- If some port below a limit is free, one is the first. -/
theorem exists_firstFree {limit : Int}
    (free : ∃ x, port ≤ x ∧ x < limit ∧ binds x = true) :
    ∃ q, q < limit ∧ FirstFree binds port q := by
  obtain ⟨x, low, high, free⟩ := free
  obtain ⟨n, rfl⟩ := Int.le.dest low
  induction n using Nat.strong_induction_on with
  | _ n ih =>
      by_cases earlier : ∃ m < n, binds (port + (m : Int)) = true
      · obtain ⟨m, less, free'⟩ := earlier
        exact ih m less (by omega) (by omega) free'
      · refine ⟨port + n, high, low, free, fun y above below => ?_⟩
        obtain ⟨m, rfl⟩ := Int.le.dest above
        rw [← Bool.not_eq_true]
        intro free'
        exact earlier ⟨m, by omega, free'⟩

theorem firstFree_next {q : Int} (first : FirstFree binds port q) (other : q ≠ port) :
    binds port = false ∧ FirstFree binds (port + 1) q := by
  obtain ⟨low, free, used⟩ := first
  refine ⟨used port (Int.le_refl _) (by omega), by omega, free, fun x above below => ?_⟩
  exact used x (by omega) below

/-- **The loop gets to the first free port**, if the comparisons on the way do not
overflow. -/
theorem bindLoop_bound {q : Int} (int : FitsInt port) (some_ : 1 ≤ range)
    (first : FirstFree binds port q) (reaches : Reaches range port q) :
    bindLoop binds range port = (portsFrom port ((q - port).toNat + 1), .bound q) := by
  obtain ⟨n, rfl⟩ := Int.le.dest first.1
  induction n generalizing port with
  | zero =>
      have here : port + (0 : Nat) = port := by omega
      have none_ : (port - port).toNat = 0 := by omega
      rw [here] at first ⊢
      rw [bindLoop_free first.2.1, none_]
      rfl
  | succ n ih =>
      have later : port + (n + 1 : Nat) = port + 1 + n := by omega
      rw [later] at first reaches ⊢
      obtain ⟨used, first'⟩ := firstFree_next first (by omega)
      have room : port + 1 + n + range < 2 ^ 31 := by
        rcases reaches with here | room
        · omega
        · exact room
      obtain ⟨low, high⟩ := int
      have fits : FitsInt (port + 1) := ⟨by omega, by omega⟩
      have fits' : FitsInt (port + 1 + range) := ⟨by omega, by omega⟩
      have count : (port + 1 + n - port).toNat = (port + 1 + n - (port + 1)).toNat + 1 := by omega
      rw [bindLoop_used used fits fits' some_, ih fits first' (.inr room), count]
      rfl

/-- What the loop has attempted is a row, and a port it has bound is the first free one. -/
theorem bindLoop_spec (binds : Int → Bool) {range : Int} (some_ : 1 ≤ range) (port : Int) :
    (bindLoop binds range port).1 = portsFrom port (bindLoop binds range port).1.length ∧
    (∀ q, (bindLoop binds range port).2 = .bound q →
      FirstFree binds port q ∧ Reaches range port q) ∧
    ∀ last, (bindLoop binds range port).2 ≠ .notBound last := by
  fun_induction bindLoop binds range port with
  | case1 port free =>
      refine ⟨rfl, ?_, nofun⟩
      rintro q ⟨⟩
      exact ⟨⟨Int.le_refl _, free, fun x above below => by omega⟩, .inl rfl⟩
  | case2 port used fits fits' more attempts how same ih =>
      rw [same] at ih
      obtain ⟨row, bound, never⟩ := ih
      refine ⟨congrArg (port :: ·) row, fun q ended => ?_, never⟩
      obtain ⟨⟨low, free, used'⟩, reaches⟩ := bound q ended
      refine ⟨⟨by omega, free, fun x above below => ?_⟩, .inr ?_⟩
      · by_cases here : x = port
        · rw [here]
          exact Bool.eq_false_of_not_eq_true used
        · exact used' x (by omega) below
      · rcases reaches with rfl | room
        · exact fits'.2
        · exact room
  | case3 port used fits fits' more => omega
  | case4 port used fits full => exact ⟨rfl, nofun, nofun⟩
  | case5 port used full => exact ⟨rfl, nofun, nofun⟩

/-! ## The range -/

/-- What `range` promises: ports of the range only, in increasing order, and either the
first free one of them is bound or all of them were attempted. -/
structure ProbesInRange (binds : Int → Bool) (port range : Int) : Prop where
  inRange : ∀ a ∈ (tryBind binds port range false).1, port ≤ a ∧ a < port + range
  increasing : (tryBind binds port range false).1.Pairwise (· < ·)
  bound : ∀ q, q < port + range → FirstFree binds port q →
    (tryBind binds port range false).2 = .bound q
  ends : (∀ q, port ≤ q → q < port + range → binds q = false) →
    (tryBind binds port range false).1.length = range ∧
      ∃ last, (tryBind binds port range false).2 = .notBound last

/-- **Port probing stays in its range exactly when the range has a free port** that is
reached without overflow. -/
theorem probing_in_range (binds : Int → Bool) {port range : Int} (int : FitsInt port)
    (some_ : 1 ≤ range) :
    ProbesInRange binds port range ↔
      ∃ q, q < port + range ∧ FirstFree binds port q ∧ Reaches range port q := by
  obtain ⟨-, ended, never⟩ := bindLoop_spec binds some_ port
  constructor
  · intro probes
    by_cases free : ∃ x, port ≤ x ∧ x < port + range ∧ binds x = true
    · obtain ⟨q, below, first⟩ := exists_firstFree free
      exact ⟨q, below, ended q (probes.bound q below first)⟩
    · obtain ⟨-, last, past⟩ := probes.ends fun q low high => by
        rw [← Bool.not_eq_true]
        exact fun free' => free ⟨q, low, high, free'⟩
      exact absurd past (never last)
  · rintro ⟨q, below, first, reaches⟩
    have ran := bindLoop_bound int some_ first reaches
    have whole : tryBind binds port range false = bindLoop binds range port := rfl
    refine ⟨fun a attempted => ?_, ?_, fun q' _ first' => ?_, fun used => ?_⟩
    · rw [whole, ran] at attempted
      have place := mem_portsFrom.mp attempted
      have low := first.1
      omega
    · rw [whole, ran]
      exact portsFrom_increasing _ _
    · rw [whole, ran]
      rcases lt_trichotomy q q' with less | rfl | less
      · have taken := first'.2.2 q first.1 less
        rw [first.2.1] at taken
        cases taken
      · rfl
      · have taken := first.2.2 q' first'.1 less
        rw [first'.2.1] at taken
        cases taken
    · have taken := used q first.1 below
      rw [first.2.1] at taken
      cases taken

/-- It applies when the default port and the next are in use. -/
theorem probing_in_range_third :
    ProbesInRange (fun port => decide (port ≠ 65090 ∧ port ≠ 65091)) 65090 10 :=
  (probing_in_range (fun port => decide (port ≠ 65090 ∧ port ≠ 65091)) (by decide)
    (by decide)).mpr ⟨65092, by decide, ⟨by decide, rfl, fun x low high => by
      have used : x = 65090 ∨ x = 65091 := by omega
      rcases used with rfl | rfl <;> rfl⟩, .inr (by decide)⟩

/-- With ten ports in use from the start on, the eleventh is bound. -/
theorem out_of_range : ¬ ∀ (binds : Int → Bool) (port range : Int), FitsInt port → 1 ≤ range →
    ProbesInRange binds port range := by
  intro all
  let binds : Int → Bool := fun port => decide (65100 ≤ port)
  have first : FirstFree binds 65090 65100 := by
    refine ⟨by decide, rfl, fun x low high => ?_⟩
    exact decide_eq_false (by omega)
  have ran : bindLoop binds 10 65090 = _ :=
    bindLoop_bound (by decide) (by decide) first (.inr (by decide))
  have attempted : (65100 : Int) ∈ (tryBind binds 65090 10 false).1 := by
    show (65100 : Int) ∈ (bindLoop binds 10 65090).1
    rw [ran]
    exact mem_portsFrom.mpr (by decide)
  have high := ((all binds 65090 10 (by decide) (by decide)).inRange _ attempted).2
  omega

/-! ## The peers on the default ports -/

theorem length_emplace_le (peers : List Bytes) (addr : Bytes) :
    (emplace peers addr).length ≤ peers.length + 1 := by
  unfold emplace
  split
  · omega
  · simp

theorem length_foldl_emplace_le (addrs peers : List Bytes) :
    (addrs.foldl emplace peers).length ≤ peers.length + addrs.length := by
  induction addrs generalizing peers with
  | nil => exact Nat.le_refl _
  | cons addr rest ih =>
      have first := length_emplace_le peers addr
      have later := ih (emplace peers addr)
      simp only [List.foldl_cons, List.length_cons]
      omega

/-- Where probing stays in its range, fewer than `range` default ports become peers. -/
theorem initialPeers_length {binds : Int → Bool} {port range q : Nat}
    (probes : ProbesInRange binds port range)
    (bound : (tryBind binds port range false).2 = .bound q) (some_ : 1 ≤ range)
    (cmdline : List Bytes) : (initialPeers cmdline port q).length < cmdline.length + range := by
  obtain ⟨-, ended, -⟩ := bindLoop_spec binds (show (1 : Int) ≤ range by omega) port
  have first := (ended q bound).1
  have below : (q : Int) < port + range := by
    by_contra beyond
    obtain ⟨-, last, past⟩ := probes.ends fun x low high => first.2.2 x low (by omega)
    rw [bound] at past
    cases past
  have given := length_foldl_emplace_le cmdline []
  have kept := List.length_filter_le (fun addr => decide (addr ≠ localhost q))
    (cmdline.foldl emplace [])
  have whole := length_foldl_emplace_le ((List.range' port (q - port)).map localhost)
    ((cmdline.foldl emplace []).filter fun addr => decide (addr ≠ localhost q))
  simp only [List.length_map, List.length_range', List.length_nil] at given whole
  show (List.foldl emplace _ _).length < _
  omega

end Piac
