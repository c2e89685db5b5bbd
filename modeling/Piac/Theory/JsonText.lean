/-
# Theory.JsonText — compact JSON text of an object

The text of an object of integers, decimals and strings as a compact writer prints
it, and a reader for that text: no white space, control characters escaped, short
escapes where JSON has them. A decimal here is an integer printed with `.0`.

* `read_write`: what was written is read back.
* `zero_notMem_write`: the text has no zero byte.

A container inside a container is written empty; `read_write` is about objects of
scalars.
-/
import Piac.Theory.Json

namespace Piac.Theory.JsonText

set_option autoImplicit false

open Piac.Theory.CppString Piac.Theory.Json

/-! ## Strings -/

/-- The characters that have an escape of their own, and its letter. -/
def shortEscapes : List (UInt8 × UInt8) :=
  [(34, 34), (92, 92), (8, 98), (12, 102), (10, 110), (13, 114), (9, 116)]

def escapeChar (b : UInt8) : Bytes :=
  match shortEscapes.lookup b with
  | some letter => [92, letter]
  | none =>
      if b < 32 then [92, 117, 48, 48, hexDigit (b.toNat / 16), hexDigit (b.toNat % 16)] else [b]

def quote (s : Bytes) : Bytes := 34 :: (s.flatMap escapeChar ++ [34])

def unescape (letter : UInt8) : Option UInt8 :=
  (shortEscapes.find? fun e => e.2 = letter).map Prod.fst

def hexValue (d : UInt8) : Nat := if d ≤ 57 then d.toNat - 48 else d.toNat - 55

/-- The characters up to the closing quote, and what follows it. -/
def readChars : Bytes → Option (Bytes × Bytes)
  | [] => none
  | b :: rest =>
      if b = 34 then some ([], rest)
      else if b = 92 then
        match rest with
        | [] => none
        | letter :: rest =>
            if letter = 117 then
              match rest with
              | _ :: _ :: high :: low :: rest =>
                  (readChars rest).map fun r =>
                    (UInt8.ofNat (16 * hexValue high + hexValue low) :: r.1, r.2)
              | _ => none
            else (unescape letter).bind fun b => (readChars rest).map fun r => (b :: r.1, r.2)
      else (readChars rest).map fun r => (b :: r.1, r.2)

theorem hexValue_hexDigit {n : Nat} (small : n < 16) : hexValue (hexDigit n) = n := by
  have value := toNat_hexDigit small
  unfold hexValue
  simp only [UInt8.le_iff_toNat_le, UInt8.toNat_ofNat]
  split at value <;> split <;> omega

theorem mem_shortEscapes {b letter : UInt8} (found : shortEscapes.lookup b = some letter) :
    (b, letter) ∈ shortEscapes := by
  obtain ⟨before, after, shape, -⟩ := List.lookup_eq_some_iff.mp found
  rw [shape]
  simp

theorem readChars_escapeChar (b : UInt8) (rest : Bytes) :
    readChars (escapeChar b ++ rest) = (readChars rest).map fun r => (b :: r.1, r.2) := by
  unfold escapeChar
  split
  · rename_i letter found
    have member := mem_shortEscapes found
    simp only [shortEscapes, List.mem_cons, Prod.mk.injEq, List.not_mem_nil, or_false] at member
    rcases member with ⟨rfl, rfl⟩ | ⟨rfl, rfl⟩ | ⟨rfl, rfl⟩ | ⟨rfl, rfl⟩ | ⟨rfl, rfl⟩ | ⟨rfl, rfl⟩ |
      ⟨rfl, rfl⟩ <;> (rw [List.cons_append, List.singleton_append, readChars.eq_def]; rfl)
  · rename_i plain
    split
    · have high := hexValue_hexDigit (show b.toNat / 16 < 16 by have := b.toNat_lt; omega)
      have low := hexValue_hexDigit (show b.toNat % 16 < 16 by omega)
      have value : UInt8.ofNat (16 * (b.toNat / 16) + b.toNat % 16) = b := by
        rw [Nat.div_add_mod, UInt8.ofNat_toNat]
      have step : readChars ([92, 117, 48, 48, hexDigit (b.toNat / 16), hexDigit (b.toNat % 16)] ++
          rest) = (readChars rest).map fun r => (UInt8.ofNat (16 * hexValue (hexDigit (b.toNat / 16))
            + hexValue (hexDigit (b.toNat % 16))) :: r.1, r.2) := by
        simp only [List.cons_append, List.nil_append]
        rw [readChars.eq_def]
        rfl
      rw [step, high, low, value]
    · have notQuote : b ≠ 34 := by rintro rfl; cases plain
      have notSlash : b ≠ 92 := by rintro rfl; cases plain
      rw [List.singleton_append, readChars.eq_def]
      simp only [if_neg notQuote, if_neg notSlash]

theorem readChars_quote (s rest : Bytes) :
    readChars (s.flatMap escapeChar ++ 34 :: rest) = some (s, rest) := by
  induction s with
  | nil =>
      rw [List.flatMap_nil, List.nil_append, readChars.eq_def]
      rfl
  | cons b s ih => rw [List.flatMap_cons, List.append_assoc, readChars_escapeChar, ih]; rfl

theorem zero_notMem_escapeChar (b : UInt8) : 0 ∉ escapeChar b := by
  have digit : ∀ n, n < 16 → hexDigit n ≠ 0 := by
    intro n small zero
    have value := toNat_hexDigit small
    rw [zero] at value
    simp only [UInt8.toNat_zero] at value
    split at value <;> omega
  unfold escapeChar
  split
  · rename_i letter found
    have member := mem_shortEscapes found
    simp only [shortEscapes, List.mem_cons, Prod.mk.injEq, List.not_mem_nil, or_false] at member
    rcases member with ⟨-, rfl⟩ | ⟨-, rfl⟩ | ⟨-, rfl⟩ | ⟨-, rfl⟩ | ⟨-, rfl⟩ | ⟨-, rfl⟩ | ⟨-, rfl⟩ <;>
      decide
  · split
    · have high := digit (b.toNat / 16) (by have := b.toNat_lt; omega)
      have low := digit (b.toNat % 16) (by omega)
      simp [high.symm, low.symm]
    · rename_i large
      simp only [List.mem_singleton]
      rintro rfl
      exact large (by decide)

theorem zero_notMem_quote (s : Bytes) : 0 ∉ quote s := by
  simp only [quote, List.mem_cons, List.mem_append, List.mem_flatMap, List.not_mem_nil, or_false]
  rintro (same | ⟨b, -, member⟩ | same)
  · exact absurd same (by decide)
  · exact zero_notMem_escapeChar b member
  · exact absurd same (by decide)

/-! ## Numbers -/

/-- An integer, and what follows it. -/
def readInt (s : Bytes) : Option (Int × Bytes) :=
  let negative := s.head? == some 45
  let s := if negative then s.tail else s
  let digits := s.takeWhile isDigit
  if digits = [] then none
  else
    some (if negative then -(digitsValue digits : Int) else digitsValue digits, s.dropWhile isDigit)

/-- Text that does not start with a digit. -/
def Stops (rest : Bytes) : Prop := ∀ b, rest.head? = some b → isDigit b = false

theorem digits_append {n : Nat} {rest : Bytes} (stops : Stops rest) :
    (stdToString n ++ rest).takeWhile isDigit = stdToString n ∧
      (stdToString n ++ rest).dropWhile isDigit = rest := by
  have all : ∀ b ∈ stdToString n, isDigit b = true := fun _ => isDigit_stdToString
  have end_ : rest.takeWhile isDigit = [] ∧ rest.dropWhile isDigit = rest := by
    cases rest with
    | nil => exact ⟨rfl, rfl⟩
    | cons b rest =>
        have plain := stops b rfl
        exact ⟨List.takeWhile_cons_of_neg (by simp [plain]), List.dropWhile_cons_of_neg (by simp [plain])⟩
  exact ⟨by rw [List.takeWhile_append_of_pos all, end_.1, List.append_nil],
    by rw [List.dropWhile_append_of_pos all, end_.2]⟩

theorem readInt_intToString (i : Int) {rest : Bytes} (stops : Stops rest) :
    readInt (intToString i ++ rest) = some (i, rest) := by
  obtain ⟨digits, after⟩ := digits_append (n := i.natAbs) stops
  obtain ⟨b, tail, shape⟩ := List.exists_cons_of_ne_nil (stdToString_ne_nil i.natAbs)
  have notMinus : b ≠ 45 := by
    rintro rfl
    have digit : isDigit 45 = true := isDigit_stdToString (n := i.natAbs) (by simp [shape])
    cases digit
  by_cases negative : i < 0
  · have value : -(i.natAbs : Int) = i := by omega
    simp only [readInt, intToString, if_pos negative, List.cons_append, List.head?_cons, BEq.rfl,
      if_true, List.tail_cons, digits, after, if_neg (stdToString_ne_nil _), digitsValue_stdToString,
      value]
  · have value : (i.natAbs : Int) = i := by omega
    have sign : ((stdToString i.natAbs ++ rest).head? == some (45 : UInt8)) = false := by
      simp [shape, notMinus]
    simp only [readInt, intToString, if_neg negative, sign, Bool.false_eq_true, if_false, digits,
      after, if_neg (stdToString_ne_nil _), digitsValue_stdToString, value]

theorem zero_notMem_intToString (i : Int) : 0 ∉ intToString i := by
  have digits : (0 : UInt8) ∉ stdToString i.natAbs := fun member => by
    have digit := isDigit_stdToString member
    exact absurd digit (by decide)
  unfold intToString
  split
  · simp [digits]
  · exact digits

/-! ## Scalars -/

def writeScalar : Value Int → Bytes
  | .null => bytes "null"
  | .bool true => bytes "true"
  | .bool false => bytes "false"
  | .int i => intToString i
  | .num i => intToString i ++ [46, 48]
  | .str s => quote s
  | .arr _ => bytes "[]"
  | .obj _ => bytes "{}"

/-- A string or a number, and what follows it. -/
def readScalar (s : Bytes) : Option (Value Int × Bytes) :=
  if s.head? = some 34 then (readChars s.tail).map fun r => (.str r.1, r.2)
  else
    (readInt s).map fun r =>
      if r.2.take 2 = [46, 48] then (.num r.1, r.2.drop 2) else (.int r.1, r.2)

theorem intToString_head (i : Int) (rest : Bytes) : (intToString i ++ rest).head? ≠ some 34 := by
  obtain ⟨b, tail, shape⟩ := List.exists_cons_of_ne_nil (stdToString_ne_nil i.natAbs)
  unfold intToString
  split
  · simp
  · rw [shape]
    simp only [List.cons_append, List.head?_cons, ne_eq, Option.some.injEq]
    rintro rfl
    have digit : isDigit 34 = true := isDigit_stdToString (n := i.natAbs) (by simp [shape])
    cases digit

/-- Text that cannot continue a number. -/
def Ends (rest : Bytes) : Prop := ∀ b, rest.head? = some b → isDigit b = false ∧ b ≠ 46

/-- A number of any size or a string. -/
def Plain : Value Int → Prop
  | .int _ | .num _ | .str _ => True
  | _ => False

theorem readScalar_plain {v : Value Int} (plain : Plain v) {rest : Bytes} (ends : Ends rest) :
    readScalar (writeScalar v ++ rest) = some (v, rest) := by
  cases v with
  | int i =>
      have noPoint : rest.take 2 ≠ [46, 48] := by
        intro point
        have head : rest.head? = some 46 := by
          cases rest with
          | nil => cases point
          | cons b rest => exact congrArg some (List.cons.inj point).1
        exact (ends 46 head).2 rfl
      simp only [readScalar, writeScalar, if_neg (intToString_head i rest),
        readInt_intToString i (fun b head => (ends b head).1), Option.map_some, if_neg noPoint]
  | num i =>
      have point : Stops ([46, 48] ++ rest) := by
        intro b head
        cases head
        rfl
      simp only [readScalar, writeScalar, List.append_assoc, if_neg (intToString_head i _),
        readInt_intToString i point, Option.map_some]
      rfl
  | str s =>
      have shape : quote s ++ rest = 34 :: (s.flatMap escapeChar ++ 34 :: rest) := by
        simp [quote, List.append_assoc]
      simp only [readScalar, writeScalar, shape, List.head?_cons, if_true, List.tail_cons,
        readChars_quote, Option.map_some]
  | null => cases plain
  | bool b => cases plain
  | arr items => cases plain
  | obj members => cases plain

/-- What follows a member: a comma or the closing brace. -/
def Follows (rest : Bytes) : Prop := rest.head? = some 44 ∨ rest.head? = some 125

theorem readScalar_writeScalar {v : Value Int} (scalar : v.Scalar) {rest : Bytes}
    (follows : Follows rest) : readScalar (writeScalar v ++ rest) = some (v, rest) := by
  have plain : Plain v := by
    cases v with
    | int i => trivial
    | num i => trivial
    | str s => trivial
    | null => cases scalar
    | bool b => cases scalar
    | arr items => cases scalar
    | obj members => cases scalar
  apply readScalar_plain plain
  intro b head
  rcases follows with h | h <;> (rw [h] at head; cases head; decide)

theorem zero_notMem_writeScalar (v : Value Int) : 0 ∉ writeScalar v := by
  cases v with
  | null => decide
  | bool b => cases b <;> decide
  | int i => exact zero_notMem_intToString i
  | num i => simp [writeScalar, zero_notMem_intToString]
  | str s => exact zero_notMem_quote s
  | arr items => exact (by decide : (0 : UInt8) ∉ bytes "[]")
  | obj members => exact (by decide : (0 : UInt8) ∉ bytes "{}")

/-! ## Objects -/

def writeMember (m : Bytes × Value Int) : Bytes := quote m.1 ++ 58 :: writeScalar m.2

/-- The members and the closing brace. -/
def writeMembers : List (Bytes × Value Int) → Bytes
  | [] => [125]
  | [m] => writeMember m ++ [125]
  | m :: rest => writeMember m ++ 44 :: writeMembers rest

def write : Value Int → Bytes
  | .obj members => 123 :: writeMembers members
  | v => writeScalar v

/-- One member at least, up to the closing brace, and what follows it. -/
def readMembers : Nat → Bytes → Option (List (Bytes × Value Int) × Bytes)
  | 0, _ => none
  | fuel + 1, s =>
      if s.head? = some 34 then
        (readChars s.tail).bind fun (name, s) =>
          if s.head? = some 58 then
            (readScalar s.tail).bind fun (v, s) =>
              if s.head? = some 44 then
                (readMembers fuel s.tail).map fun r => ((name, v) :: r.1, r.2)
              else if s.head? = some 125 then some ([(name, v)], s.tail)
              else none
          else none
      else none

def read (s : Bytes) : Option (Value Int) :=
  if s = [123, 125] then some (.obj [])
  else if s.head? = some 123 then
    (readMembers s.length s.tail).bind fun r => if r.2 = [] then some (.obj r.1) else none
  else none

theorem readMembers_writeMember {m : Bytes × Value Int} (scalar : m.2.Scalar) {rest : Bytes}
    (follows : Follows rest) (fuel : Nat) : readMembers (fuel + 1) (writeMember m ++ rest) =
      if rest.head? = some 44 then (readMembers fuel rest.tail).map fun r => (m :: r.1, r.2)
      else if rest.head? = some 125 then some ([m], rest.tail) else none := by
  have shape : writeMember m ++ rest =
      34 :: (m.1.flatMap escapeChar ++ 34 :: 58 :: (writeScalar m.2 ++ rest)) := by
    simp [writeMember, quote, List.append_assoc]
  simp only [readMembers, shape, List.head?_cons, if_true, List.tail_cons, readChars_quote,
    Option.bind_some, readScalar_writeScalar scalar follows]

theorem readMembers_writeMembers {members : List (Bytes × Value Int)} (some_ : members ≠ [])
    (scalars : ∀ m ∈ members, m.2.Scalar) {fuel : Nat} (enough : members.length ≤ fuel) :
    readMembers fuel (writeMembers members) = some (members, []) := by
  induction members generalizing fuel with
  | nil => exact absurd rfl some_
  | cons m rest ih =>
      cases fuel with
      | zero => cases enough
      | succ fuel =>
          cases rest with
          | nil =>
              rw [writeMembers, readMembers_writeMember (scalars m (by simp)) (.inr rfl)]
              rfl
          | cons m' rest =>
              have later := ih (by simp) (fun k member => scalars k (by simp [member]))
                (Nat.le_of_succ_le_succ enough)
              rw [writeMembers, readMembers_writeMember (scalars m (by simp)) (.inl rfl)]
              · simp only [List.head?_cons, if_true, List.tail_cons, later, Option.map_some]
              · simp

theorem length_le_writeMembers (members : List (Bytes × Value Int)) :
    members.length ≤ (writeMembers members).length := by
  induction members with
  | nil => simp
  | cons m rest ih =>
      cases rest with
      | nil => simp [writeMembers]
      | cons m' rest =>
          simp only [writeMembers, List.length_append, List.length_cons] at ih ⊢
          omega

/-- **What was written is read back.** -/
theorem read_write {members : List (Bytes × Value Int)} (scalars : ∀ m ∈ members, m.2.Scalar) :
    read (write (.obj members)) = some (.obj members) := by
  cases members with
  | nil => rfl
  | cons m rest =>
      have notEmpty : write (.obj (m :: rest)) ≠ [123, 125] := by
        intro same
        have quoted : ∃ tail, writeMembers (m :: rest) = 34 :: tail := by
          cases rest <;> exact ⟨_, rfl⟩
        obtain ⟨tail, quoted⟩ := quoted
        rw [write, quoted] at same
        cases same
      have back := @readMembers_writeMembers (m :: rest) (by simp) scalars
        (write (.obj (m :: rest))).length (by
          have bound := length_le_writeMembers (m :: rest)
          exact Nat.le_succ_of_le bound)
      simp only [read, if_neg notEmpty]
      simp only [write, List.head?_cons, if_true, List.tail_cons] at back ⊢
      simp only [back, Option.bind_some, if_true]

/-! ## Lists of objects -/

/-- The objects of a list, after the opening bracket. -/
def readItems : Nat → Bytes → Option (List (Value Int))
  | 0, _ => none
  | fuel + 1, s =>
      if s.head? = some 123 then
        (readMembers s.length s.tail).bind fun (members, s) =>
          if s.head? = some 44 then (readItems fuel s.tail).map fun items => .obj members :: items
          else if s = [93] then some [.obj members]
          else none
      else none

/-- An object or a list of objects. -/
def readText (s : Bytes) : Option (Value Int) :=
  if s.head? = some 91 then (readItems s.length s.tail).map .arr else read s

theorem readText_write {members : List (Bytes × Value Int)} (scalars : ∀ m ∈ members, m.2.Scalar) :
    readText (write (.obj members)) = some (.obj members) := by
  have notList : ¬ (write (.obj members)).head? = some 91 := by simp [write]
  rw [readText, if_neg notList, read_write scalars]

theorem write_ne_nil (v : Value Int) : write v ≠ [] := by
  cases v with
  | null => decide
  | bool b => cases b <;> decide
  | int i =>
      show intToString i ≠ []
      unfold intToString
      split
      · simp
      · exact stdToString_ne_nil _
  | num i => simp [write, writeScalar]
  | str s => simp [write, writeScalar, quote]
  | arr items => exact (by decide : bytes "[]" ≠ [])
  | obj members => simp [write]

theorem zero_notMem_write (v : Value Int) : 0 ∉ write v := by
  cases v with
  | obj members =>
      have all : 0 ∉ writeMembers members := by
        induction members with
        | nil => decide
        | cons m rest ih =>
            have here : 0 ∉ writeMember m := by
              simp [writeMember, zero_notMem_quote, zero_notMem_writeScalar]
            cases rest with
            | nil => simp [writeMembers, here]
            | cons m' rest => simp [writeMembers, here, ih]
      simp [write, all]
  | null => exact zero_notMem_writeScalar .null
  | bool b => exact zero_notMem_writeScalar (.bool b)
  | int i => exact zero_notMem_writeScalar (.int i)
  | num i => exact zero_notMem_writeScalar (.num i)
  | str s => exact zero_notMem_writeScalar (.str s)
  | arr items => exact zero_notMem_writeScalar (.arr items)

end Piac.Theory.JsonText
