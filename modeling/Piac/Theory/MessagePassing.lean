/-
# Theory.MessagePassing — nodes joined by FIFO links

Nodes of one type, and from any node to any other a link, an unbounded queue. In
one turn a node may take the oldest message of a link to it, changes its state and
appends messages to the links out of it; `Turn` states that relation between two
nets, and `turn_of_post`, `turn_of_pop` show that the operations of an executable
net have it.

* `Turn.mem_kept`, `Turn.mem_new`, `Turn.mem_sent`: what is in flight after a turn.
* `Heralded`: on a link, a message that needs a greeting has one before it.
* `Turn.load`, `Turn.sum_node`: the bookkeeping of a rank that adds up weights of
  messages and of nodes.
-/
import Mathlib.Algebra.BigOperators.Group.Finset.Basic
import Mathlib.Algebra.GroupWithZero.Nat
import Mathlib.Algebra.Order.BigOperators.Group.Finset
import Mathlib.Algebra.BigOperators.Group.List.Basic
import Mathlib.Data.Fintype.Basic

namespace Piac.Theory.MessagePassing

set_option autoImplicit false

universe u v w

/-- The states of the nodes and the messages on the links, oldest first. -/
@[ext] structure Net (ι : Type u) (Node : Type v) (Msg : Type w) where
  node : ι → Node
  link : ι → ι → List Msg

instance {ι : Type u} {Node : Type v} {Msg : Type w} [Fintype ι] [DecidableEq Node]
    [DecidableEq Msg] : DecidableEq (Net ι Node Msg) := fun a b =>
  decidable_of_iff ((∀ i, a.node i = b.node i) ∧ ∀ i j, a.link i j = b.link i j)
    ⟨fun same => Net.ext (funext same.1) (funext₂ same.2), fun same => same ▸ ⟨fun _ => rfl, fun _ _ => rfl⟩⟩

variable {ι : Type u} {Node : Type v} {Msg : Type w} [DecidableEq ι]

/-! ## Operations -/

/-- Node `i` goes to state `n` and sends. -/
def Net.post (net : Net ι Node Msg) (i : ι) (n : Node) (out : ι → List Msg) :
    Net ι Node Msg where
  node := Function.update net.node i n
  link a b := if a = i then net.link a b ++ out b else net.link a b

/-- The oldest message of a link, and the net without it. -/
def Net.pop (net : Net ι Node Msg) (src dst : ι) : Option (Msg × Net ι Node Msg) :=
  match net.link src dst with
  | [] => none
  | m :: rest =>
      some (m, { net with link := fun a b => if a = src ∧ b = dst then rest else net.link a b })

/-- Messages with addresses, as messages on links. What is addressed to nobody is lost. -/
def route {Addr : Type} [DecidableEq Addr] (address : ι → Addr) (sends : List (Addr × Msg))
    (b : ι) : List Msg :=
  (sends.filter fun s => s.1 = address b).map Prod.snd

omit [DecidableEq ι] in
@[simp] theorem mem_route {Addr : Type} [DecidableEq Addr] {address : ι → Addr}
    {sends : List (Addr × Msg)} {b : ι} {m : Msg} :
    m ∈ route address sends b ↔ (address b, m) ∈ sends := by
  simp [route]

/-! ## Turns -/

/-- What node `i` takes from the link from `a` to `b`. -/
def received (i : ι) (input : Option (ι × Msg)) (a b : ι) : List Msg :=
  match input with
  | none => []
  | some (src, m) => if a = src ∧ b = i then [m] else []

/-- What node `i` puts on the link from `a` to `b`. -/
def posted (i : ι) (out : ι → List Msg) (a b : ι) : List Msg :=
  if a = i then out b else []

/-- From `net` to `net'`, node `i` took `input` (source and message), went to state `n` and
sent `out`. -/
structure Turn (net net' : Net ι Node Msg) (i : ι) (input : Option (ι × Msg)) (n : Node)
    (out : ι → List Msg) : Prop where
  node_self : net'.node i = n
  node_other : ∀ k, k ≠ i → net'.node k = net.node k
  link : ∀ a b, ∃ rest, net.link a b = received i input a b ++ rest ∧
    net'.link a b = rest ++ posted i out a b

theorem turn_of_post (net : Net ι Node Msg) (i : ι) (n : Node) (out : ι → List Msg) :
    Turn net (net.post i n out) i none n out where
  node_self := Function.update_self ..
  node_other k other := Function.update_of_ne other ..
  link a b := by
    refine ⟨net.link a b, rfl, ?_⟩
    simp only [Net.post, posted]
    split <;> simp

theorem turn_of_pop {net rest : Net ι Node Msg} {src dst : ι} {m : Msg}
    (popped : net.pop src dst = some (m, rest)) (n : Node) (out : ι → List Msg) :
    Turn net (rest.post dst n out) dst (some (src, m)) n out := by
  unfold Net.pop at popped
  split at popped
  · cases popped
  · rename_i later queue
    cases popped
    refine ⟨Function.update_self .., fun k other => Function.update_of_ne other .., fun a b => ?_⟩
    by_cases here : a = src ∧ b = dst
    · obtain ⟨rfl, rfl⟩ := here
      refine ⟨later, by simp [received, queue], ?_⟩
      simp only [Net.post, posted, and_self, if_true]
      split <;> simp
    · refine ⟨net.link a b, by simp [received, here], ?_⟩
      simp only [Net.post, posted, here, if_false]
      split <;> simp

namespace Turn

variable {net net' : Net ι Node Msg} {i : ι} {input : Option (ι × Msg)} {n : Node}
  {out : ι → List Msg}

theorem mem_kept (turn : Turn net net' i input n out) {a b : ι} {m : Msg}
    (member : m ∈ net.link a b) : m ∈ net'.link a b ∨ (b = i ∧ input = some (a, m)) := by
  obtain ⟨rest, before, after⟩ := turn.link a b
  rw [before, List.mem_append] at member
  rcases member with taken | kept
  · right
    unfold received at taken
    split at taken
    · cases taken
    · split at taken
      · rename_i here
        obtain ⟨rfl, rfl⟩ := here
        rw [List.mem_singleton.mp taken]
        exact ⟨rfl, rfl⟩
      · cases taken
  · left
    rw [after]
    exact List.mem_append_left _ kept

theorem mem_new (turn : Turn net net' i input n out) {a b : ι} {m : Msg}
    (member : m ∈ net'.link a b) : m ∈ net.link a b ∨ (a = i ∧ m ∈ out b) := by
  obtain ⟨rest, before, after⟩ := turn.link a b
  rw [after, List.mem_append] at member
  rcases member with kept | new
  · left
    rw [before]
    exact List.mem_append_right _ kept
  · right
    unfold posted at new
    split at new
    · exact ⟨by assumption, new⟩
    · cases new

theorem mem_sent (turn : Turn net net' i input n out) {b : ι} {m : Msg} (member : m ∈ out b) :
    m ∈ net'.link i b := by
  obtain ⟨rest, -, after⟩ := turn.link i b
  rw [after, posted, if_pos rfl]
  exact List.mem_append_right _ member

theorem mem_input {src : ι} {m : Msg} (turn : Turn net net' i (some (src, m)) n out) :
    m ∈ net.link src i := by
  obtain ⟨rest, before, -⟩ := turn.link src i
  rw [before, received, if_pos ⟨rfl, rfl⟩]
  exact List.mem_cons_self

end Turn

/-! ## Greetings -/

/-- Every message that needs a greeting has one before it. -/
def Heralded (greets needs : Msg → Prop) : List Msg → Prop
  | [] => True
  | m :: rest => greets m ∨ (¬ needs m ∧ Heralded greets needs rest)

section Heralded

variable {greets needs : Msg → Prop}

theorem heralded_of_greeting {l l' : List Msg} (heralded : Heralded greets needs l)
    (greeted : ∃ g ∈ l, greets g) : Heralded greets needs (l ++ l') := by
  induction l with
  | nil => simp at greeted
  | cons m rest ih =>
      rcases heralded with greets_m | ⟨plain, heralded⟩
      · exact .inl greets_m
      · obtain ⟨g, member, greets_g⟩ := greeted
        rcases List.mem_cons.mp member with rfl | later
        · exact .inl greets_g
        · exact .inr ⟨plain, ih heralded ⟨g, later, greets_g⟩⟩

theorem heralded_of_plain {l : List Msg} (plain : ∀ m ∈ l, greets m ∨ ¬ needs m) :
    Heralded greets needs l := by
  induction l with
  | nil => trivial
  | cons m rest ih =>
      rcases plain m (by simp) with greets_m | plain_m
      · exact .inl greets_m
      · exact .inr ⟨plain_m, ih fun m' later => plain m' (by simp [later])⟩

theorem Heralded.append {l l' : List Msg} (first : Heralded greets needs l)
    (second : Heralded greets needs l') : Heralded greets needs (l ++ l') := by
  induction l with
  | nil => exact second
  | cons m rest ih =>
      rcases first with greets_m | ⟨plain, first⟩
      · exact .inl greets_m
      · exact .inr ⟨plain, ih first⟩

theorem Heralded.of_append {l l' : List Msg} (heralded : Heralded greets needs (l ++ l')) :
    Heralded greets needs l := by
  induction l with
  | nil => trivial
  | cons m rest ih =>
      rcases heralded with greets_m | ⟨plain, heralded⟩
      · exact .inl greets_m
      · exact .inr ⟨plain, ih heralded⟩

theorem Heralded.take {l : List Msg} (heralded : Heralded greets needs l) (k : Nat) :
    Heralded greets needs (l.take k) := by
  rw [← List.take_append_drop k l] at heralded
  exact heralded.of_append

end Heralded

/-! ## Weights -/

section Weights

variable [Fintype ι]

/-- The total weight of the messages in flight. -/
def load (weight : Msg → Nat) (net : Net ι Node Msg) : Nat :=
  ∑ a, ∑ b, ((net.link a b).map weight).sum

theorem Turn.load {net net' : Net ι Node Msg} {i : ι} {input : Option (ι × Msg)} {n : Node}
    {out : ι → List Msg} (turn : Turn net net' i input n out) (weight : Msg → Nat) :
    MessagePassing.load weight net' + (input.elim 0 fun p => weight p.2) =
      MessagePassing.load weight net + ∑ b, ((out b).map weight).sum := by
  have linkwise : ∀ a b, ((net'.link a b).map weight).sum + ((received i input a b).map weight).sum =
      ((net.link a b).map weight).sum + ((posted i out a b).map weight).sum := by
    intro a b
    obtain ⟨rest, before, after⟩ := turn.link a b
    rw [before, after, List.map_append, List.map_append, List.sum_append, List.sum_append]
    omega
  have taken : ∑ a, ∑ b, ((received i input a b).map weight).sum =
      input.elim 0 fun p => weight p.2 := by
    cases input with
    | none => simp [received]
    | some p =>
        obtain ⟨src, m⟩ := p
        rw [Finset.sum_eq_single src (fun a _ other => by simp [received, other]) (by simp),
          Finset.sum_eq_single i (fun b _ other => by simp [received, other]) (by simp)]
        simp [received]
  have added : ∑ a, ∑ b, ((posted i out a b).map weight).sum = ∑ b, ((out b).map weight).sum := by
    rw [Finset.sum_eq_single i (fun a _ other => by simp [posted, other]) (by simp)]
    simp [posted]
  rw [← taken, ← added]
  simp only [MessagePassing.load, ← Finset.sum_add_distrib, linkwise]

theorem Turn.sum_node {net net' : Net ι Node Msg} {i : ι} {input : Option (ι × Msg)} {n : Node}
    {out : ι → List Msg} (turn : Turn net net' i input n out) (weight : Node → Nat) :
    ∑ k, weight (net'.node k) + weight (net.node i) = ∑ k, weight (net.node k) + weight n := by
  have split : ∀ f : ι → Nat, ∑ k, f k = f i + ∑ k ∈ Finset.univ.erase i, f k := fun f =>
    (Finset.add_sum_erase Finset.univ f (Finset.mem_univ i)).symm
  have others : ∑ k ∈ Finset.univ.erase i, weight (net'.node k) =
      ∑ k ∈ Finset.univ.erase i, weight (net.node k) :=
    Finset.sum_congr rfl fun k member => by rw [turn.node_other k (Finset.ne_of_mem_erase member)]
  rw [split fun k => weight (net'.node k), split fun k => weight (net.node k), others,
    turn.node_self]
  omega

omit [DecidableEq ι] in
/-- A message goes to one node at most. -/
theorem route_load {Addr : Type} [DecidableEq Addr] {address : ι → Addr}
    (injective : Function.Injective address) (weight : Msg → Nat) (sends : List (Addr × Msg)) :
    ∑ b, ((route address sends b).map weight).sum ≤ (sends.map fun s => weight s.2).sum := by
  induction sends with
  | nil => simp [route]
  | cons s rest ih =>
      have first : ∀ b, ((route address (s :: rest) b).map weight).sum =
          (if s.1 = address b then weight s.2 else 0) + ((route address rest b).map weight).sum := by
        intro b
        by_cases here : s.1 = address b <;> simp [route, here]
      have once : ∑ b, (if s.1 = address b then weight s.2 else 0) ≤ weight s.2 := by
        by_cases known : ∃ b, s.1 = address b
        · obtain ⟨b, same⟩ := known
          rw [Finset.sum_eq_single b (fun c _ other => by
            simp [same, injective.eq_iff, Ne.symm other]) (by simp)]
          simp [same]
        · have never : ∀ b, s.1 ≠ address b := fun b same => known ⟨b, same⟩
          simp [never]
      simp only [first, Finset.sum_add_distrib, List.map_cons, List.sum_cons]
      omega

end Weights

end Piac.Theory.MessagePassing
