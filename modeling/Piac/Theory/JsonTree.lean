/-
# Theory.JsonTree — compact JSON text of any value

The text of a value of any depth as a compact writer prints it, and a reader for
that text. Strings, integers and decimals are those of `Theory.JsonText`.

* `read_print`: what was printed is read back.
* `zero_notMem_print`: the text has no zero byte.
-/
import Piac.Theory.JsonText

namespace Piac.Theory.JsonTree

set_option autoImplicit false

open Piac.Theory.CppString Piac.Theory.Json Piac.Theory.JsonText

/-! ## Printing -/

mutual

def print : Value Int → Bytes
  | .arr [] => [91, 93]
  | .arr (v :: rest) => 91 :: (print v ++ printItems rest)
  | .obj [] => [123, 125]
  | .obj ((name, v) :: rest) => 123 :: (quote name ++ 58 :: (print v ++ printMembers rest))
  | v => writeScalar v

/-- The items after the first, each behind its comma, and the closing bracket. -/
def printItems : List (Value Int) → Bytes
  | [] => [93]
  | v :: rest => 44 :: (print v ++ printItems rest)

/-- The members after the first, each behind its comma, and the closing brace. -/
def printMembers : List (Bytes × Value Int) → Bytes
  | [] => [125]
  | (name, v) :: rest => 44 :: (quote name ++ 58 :: (print v ++ printMembers rest))

end

/-! ## Reading -/

/-- One of the three words, and what follows it. -/
def readWord (s : Bytes) : Option (Value Int × Bytes) :=
  if s.take 4 = bytes "null" then some (.null, s.drop 4)
  else if s.take 4 = bytes "true" then some (.bool true, s.drop 4)
  else if s.take 5 = bytes "false" then some (.bool false, s.drop 5)
  else none

mutual

/-- A value, and what follows it. -/
def readValue : Nat → Bytes → Option (Value Int × Bytes)
  | 0, _ => none
  | fuel + 1, s =>
      if s.head? = some 91 then
        if s.tail.head? = some 93 then some (.arr [], s.tail.tail)
        else
          (readValue fuel s.tail).bind fun (v, s) =>
            (readItems fuel s).map fun r => (.arr (v :: r.1), r.2)
      else if s.head? = some 123 then
        if s.tail.head? = some 125 then some (.obj [], s.tail.tail)
        else
          (readMember fuel s.tail).bind fun (m, s) =>
            (readMembers fuel s).map fun r => (.obj (m :: r.1), r.2)
      else (readScalar s).or (readWord s)

def readItems : Nat → Bytes → Option (List (Value Int) × Bytes)
  | 0, _ => none
  | fuel + 1, s =>
      if s.head? = some 93 then some ([], s.tail)
      else if s.head? = some 44 then
        (readValue fuel s.tail).bind fun (v, s) =>
          (readItems fuel s).map fun r => (v :: r.1, r.2)
      else none

def readMembers : Nat → Bytes → Option (List (Bytes × Value Int) × Bytes)
  | 0, _ => none
  | fuel + 1, s =>
      if s.head? = some 125 then some ([], s.tail)
      else if s.head? = some 44 then
        (readMember fuel s.tail).bind fun (m, s) =>
          (readMembers fuel s).map fun r => (m :: r.1, r.2)
      else none

/-- A name, a colon and a value. -/
def readMember : Nat → Bytes → Option ((Bytes × Value Int) × Bytes)
  | 0, _ => none
  | fuel + 1, s =>
      if s.head? = some 34 then
        (readChars s.tail).bind fun (name, s) =>
          if s.head? = some 58 then (readValue fuel s.tail).map fun r => ((name, r.1), r.2)
          else none
      else none

end

/-- The value of a whole text. -/
def read (s : Bytes) : Option (Value Int) :=
  (readValue (s.length + 1) s).bind fun r => if r.2 = [] then some r.1 else none

/-! ## There and back -/

/-- What follows a value: the end, a comma or a closing bracket. -/
def Follows (rest : Bytes) : Prop := ∀ b, rest.head? = some b → b = 44 ∨ b = 93 ∨ b = 125

theorem Follows.ends {rest : Bytes} (follows : Follows rest) : Ends rest := by
  intro b head
  rcases follows b head with rfl | rfl | rfl <;> decide

theorem follows_nil : Follows [] := by
  intro b head
  cases head

theorem follows_items (items : List (Value Int)) (rest : Bytes) :
    Follows (printItems items ++ rest) := by
  intro b head
  cases items with
  | nil => cases head; exact .inr (.inl rfl)
  | cons v items => cases head; exact .inl rfl

theorem follows_members (members : List (Bytes × Value Int)) (rest : Bytes) :
    Follows (printMembers members ++ rest) := by
  intro b head
  cases members with
  | nil => cases head; exact .inr (.inr rfl)
  | cons m members => cases head; exact .inl rfl

/-- Neither a list nor an object. -/
def Leaf : Value Int → Prop
  | .arr _ | .obj _ => False
  | _ => True

theorem writeScalar_first {v : Value Int} (leaf : Leaf v) :
    ∃ b tail, writeScalar v = b :: tail ∧ b ≠ 91 ∧ b ≠ 93 ∧ b ≠ 123 := by
  have number : ∀ i : Int, ∃ b tail, intToString i = b :: tail ∧ b ≠ 91 ∧ b ≠ 93 ∧ b ≠ 123 := by
    intro i
    obtain ⟨b, tail, shape⟩ := List.exists_cons_of_ne_nil (stdToString_ne_nil i.natAbs)
    have digit : isDigit b = true := isDigit_stdToString (n := i.natAbs) (by simp [shape])
    unfold intToString
    split
    · exact ⟨45, _, rfl, by decide⟩
    · refine ⟨b, tail, shape, ?_, ?_, ?_⟩ <;> (rintro rfl; cases digit)
  cases v with
  | null => exact ⟨110, _, rfl, by decide⟩
  | bool b =>
      cases b with
      | true => exact ⟨116, _, rfl, by decide⟩
      | false => exact ⟨102, _, rfl, by decide⟩
  | int i => exact number i
  | num i =>
      obtain ⟨b, tail, shape, other⟩ := number i
      exact ⟨b, tail ++ [46, 48], by rw [writeScalar, shape, List.cons_append], other⟩
  | str s => exact ⟨34, _, rfl, by decide⟩
  | arr items => exact leaf.elim
  | obj members => exact leaf.elim

theorem print_leaf {v : Value Int} (leaf : Leaf v) : print v = writeScalar v := by
  cases v with
  | arr items => exact leaf.elim
  | obj members => exact leaf.elim
  | _ => simp only [print]

theorem leaf_first {v : Value Int} (leaf : Leaf v) : ∃ b tail, print v = b :: tail ∧ b ≠ 93 := by
  obtain ⟨b, tail, shape, -, other, -⟩ := writeScalar_first leaf
  rw [print_leaf leaf]
  exact ⟨b, tail, shape, other⟩

/-- No value starts with the closing bracket. -/
theorem print_first (v : Value Int) : ∃ b tail, print v = b :: tail ∧ b ≠ 93 := by
  cases v with
  | arr items =>
      cases items with
      | nil => exact ⟨91, _, by rw [print], by decide⟩
      | cons v items => exact ⟨91, _, by rw [print], by decide⟩
  | obj members =>
      rcases members with _ | ⟨⟨name, v⟩, members⟩
      · exact ⟨123, _, by rw [print], by decide⟩
      · exact ⟨123, _, by rw [print], by decide⟩
  | _ => exact leaf_first (by trivial)

/-- A value that holds no other is read back. -/
theorem readValue_leaf {v : Value Int} (leaf : Leaf v) {fuel : Nat} {rest : Bytes}
    (follows : Follows rest) (enough : (print v).length ≤ fuel) :
    readValue fuel (print v ++ rest) = some (v, rest) := by
  obtain ⟨b, tail, shape, list, -, object⟩ := writeScalar_first leaf
  rw [print_leaf leaf] at enough ⊢
  cases fuel with
  | zero => rw [shape] at enough; cases enough
  | succ fuel =>
      have head : (writeScalar v ++ rest).head? = some b := by rw [shape]; rfl
      rw [readValue, head, if_neg (by simpa using list), if_neg (by simpa using object)]
      cases v with
      | null => rfl
      | bool b => cases b <;> rfl
      | int i => rw [readScalar_plain (v := .int i) trivial follows.ends]; rfl
      | num i => rw [readScalar_plain (v := .num i) trivial follows.ends]; rfl
      | str s => rw [readScalar_plain (v := .str s) trivial follows.ends]; rfl
      | arr items => exact leaf.elim
      | obj members => exact leaf.elim

mutual

/-- A value is read back from the front of a text. -/
theorem readValue_print : ∀ (v : Value Int) {fuel : Nat} {rest : Bytes}, Follows rest →
    (print v).length ≤ fuel → readValue fuel (print v ++ rest) = some (v, rest)
  | .null, _, _, follows, enough => readValue_leaf (by trivial) follows enough
  | .bool _, _, _, follows, enough => readValue_leaf (by trivial) follows enough
  | .int _, _, _, follows, enough => readValue_leaf (by trivial) follows enough
  | .num _, _, _, follows, enough => readValue_leaf (by trivial) follows enough
  | .str _, _, _, follows, enough => readValue_leaf (by trivial) follows enough
  | .arr [], fuel, rest, _, enough => by
      cases fuel with
      | zero => cases enough
      | succ fuel => rfl
  | .arr (v :: items), fuel, rest, _, enough => by
      cases fuel with
      | zero => rw [print] at enough; cases enough
      | succ fuel =>
          rw [print] at enough ⊢
          simp only [List.length_cons, List.length_append] at enough
          have first := readValue_print v (follows_items items rest)
            (show (print v).length ≤ fuel by omega)
          have later := readItems_print items rest (show (printItems items).length ≤ fuel by omega)
          obtain ⟨b, tail, shape, other⟩ := print_first v
          have notClosed : ¬ (print v ++ (printItems items ++ rest)).head? = some 93 := by
            rw [shape]
            simpa using other
          simp only [readValue, List.cons_append, List.append_assoc, List.head?_cons, if_true,
            List.tail_cons, if_neg notClosed, first, Option.bind_some, later, Option.map_some]
  | .obj [], fuel, rest, _, enough => by
      cases fuel with
      | zero => cases enough
      | succ fuel => rfl
  | .obj ((name, v) :: members), fuel, rest, _, enough => by
      cases fuel with
      | zero => rw [print] at enough; cases enough
      | succ fuel =>
          rw [print] at enough ⊢
          simp only [List.length_cons, List.length_append] at enough
          have first := readMember_print name v (follows_members members rest)
            (show (print v).length + 1 ≤ fuel by omega)
          have later := readMembers_print members rest
            (show (printMembers members).length ≤ fuel by omega)
          have isObject : ¬ some (123 : UInt8) = some 91 := by decide
          have notClosed : ¬ (quote name ++ 58 :: (print v ++ (printMembers members ++ rest))).head?
              = some 125 := by
            show ¬ some (34 : UInt8) = some 125
            decide
          simp only [readValue, List.cons_append, List.append_assoc, List.head?_cons, isObject,
            if_false, if_true, List.tail_cons, if_neg notClosed, first, Option.bind_some, later,
            Option.map_some]

theorem readItems_print : ∀ (items : List (Value Int)) {fuel : Nat} (rest : Bytes),
    (printItems items).length ≤ fuel →
      readItems fuel (printItems items ++ rest) = some (items, rest)
  | [], fuel, rest, enough => by
      cases fuel with
      | zero => cases enough
      | succ fuel => rfl
  | v :: items, fuel, rest, enough => by
      cases fuel with
      | zero => cases enough
      | succ fuel =>
          rw [printItems] at enough ⊢
          simp only [List.length_cons, List.length_append] at enough
          have first := readValue_print v (follows_items items rest)
            (show (print v).length ≤ fuel by omega)
          have later := readItems_print items rest (show (printItems items).length ≤ fuel by omega)
          have comma : ¬ some (44 : UInt8) = some 93 := by decide
          simp only [readItems, List.cons_append, List.append_assoc, List.head?_cons, comma,
            if_false, if_true, List.tail_cons, first, Option.bind_some, later, Option.map_some]

theorem readMembers_print : ∀ (members : List (Bytes × Value Int)) {fuel : Nat} (rest : Bytes),
    (printMembers members).length ≤ fuel →
      readMembers fuel (printMembers members ++ rest) = some (members, rest)
  | [], fuel, rest, enough => by
      cases fuel with
      | zero => cases enough
      | succ fuel => rfl
  | (name, v) :: members, fuel, rest, enough => by
      cases fuel with
      | zero => cases enough
      | succ fuel =>
          rw [printMembers] at enough ⊢
          simp only [List.length_cons, List.length_append] at enough
          have first := readMember_print name v (follows_members members rest)
            (show (print v).length + 1 ≤ fuel by omega)
          have later := readMembers_print members rest
            (show (printMembers members).length ≤ fuel by omega)
          have comma : ¬ some (44 : UInt8) = some 125 := by decide
          simp only [readMembers, List.cons_append, List.append_assoc, List.head?_cons, comma,
            if_false, if_true, List.tail_cons, first, Option.bind_some, later, Option.map_some]

theorem readMember_print : ∀ (name : Bytes) (v : Value Int) {fuel : Nat} {rest : Bytes},
    Follows rest → (print v).length + 1 ≤ fuel →
      readMember fuel (quote name ++ 58 :: (print v ++ rest)) = some ((name, v), rest)
  | name, v, fuel, rest, follows, enough => by
      cases fuel with
      | zero => cases enough
      | succ fuel =>
          have value := readValue_print v follows (Nat.le_of_succ_le_succ enough)
          have shape : quote name ++ 58 :: (print v ++ rest) =
              34 :: (name.flatMap escapeChar ++ 34 :: 58 :: (print v ++ rest)) := by
            simp [quote, List.append_assoc]
          simp only [readMember, shape, List.head?_cons, if_true, List.tail_cons, readChars_quote,
            Option.bind_some, value, Option.map_some]

end

/-- **What was printed is read back.** -/
theorem read_print (v : Value Int) : read (print v) = some v := by
  have whole := readValue_print v follows_nil (Nat.le_succ (print v).length)
  rw [List.append_nil] at whole
  simp only [read, whole, Option.bind_some, if_true]

theorem print_ne_nil (v : Value Int) : print v ≠ [] := by
  obtain ⟨b, tail, shape, -⟩ := print_first v
  rw [shape]
  exact List.cons_ne_nil b tail

mutual

/-- The text has no zero byte. -/
theorem zero_notMem_print : ∀ v : Value Int, 0 ∉ print v
  | .null => by simpa only [print] using zero_notMem_writeScalar .null
  | .bool b => by simpa only [print] using zero_notMem_writeScalar (.bool b)
  | .int i => by simpa only [print] using zero_notMem_writeScalar (.int i)
  | .num i => by simpa only [print] using zero_notMem_writeScalar (.num i)
  | .str s => by simpa only [print] using zero_notMem_writeScalar (.str s)
  | .arr [] => by simp [print]
  | .arr (v :: items) => by simp [print, zero_notMem_print v, zero_notMem_printItems items]
  | .obj [] => by simp [print]
  | .obj ((name, v) :: members) => by
      simp [print, zero_notMem_quote, zero_notMem_print v, zero_notMem_printMembers members]

theorem zero_notMem_printItems : ∀ items : List (Value Int), 0 ∉ printItems items
  | [] => by simp [printItems]
  | v :: items => by simp [printItems, zero_notMem_print v, zero_notMem_printItems items]

theorem zero_notMem_printMembers : ∀ members : List (Bytes × Value Int), 0 ∉ printMembers members
  | [] => by simp [printMembers]
  | (name, v) :: members => by
      simp [printMembers, zero_notMem_quote, zero_notMem_print v, zero_notMem_printMembers members]

end

end Piac.Theory.JsonTree
