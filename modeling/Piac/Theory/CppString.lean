/-
# Theory.CppString — byte strings as `std::string` holds them

A `std::string` is a list of bytes, zero bytes included; what loses bytes is the
detour through a C string (`cstr`), which ends at the first zero byte.

* `cstr_eq_self`: the detour is harmless exactly on strings without a zero byte.
* `stdToString` and `stoul`: `std::to_string` and `std::stoul` in base ten, with
  the white space, the sign and the two exceptions of the latter;
  `stoul_stdToString` reads back every `std::size_t` that was printed.
* `stoi`: `std::stoi` with the same exceptions;
* `rfind`: the last occurrence of a pattern; `rfind_append` finds a separator
  that the text after it does not repeat.
* `utf8`: the texts that are UTF-8.
* `words`: what a `std::ifstream` hands out word by word; `mem_words` are the
  pieces between white space.
-/
import Mathlib.Data.Nat.Digits.Lemmas
import Mathlib.Data.List.Lex
import Mathlib.Data.List.TakeWhile

namespace Piac.Theory.CppString

set_option autoImplicit false

/-- The contents of a `std::string`. -/
abbrev Bytes := List UInt8

/-- The bytes of a string literal. -/
def bytes (s : String) : Bytes := s.toUTF8.data.toList

/-- Bytes are compared as `unsigned char`, so that strings are ordered as `std::map` orders
them. -/
instance byteOrder : LinearOrder UInt8 where
  le_refl := UInt8.le_refl
  le_trans _ _ _ := UInt8.le_trans
  le_antisymm _ _ := UInt8.le_antisymm
  le_total := UInt8.le_total
  lt_iff_le_not_ge a b := by
    simp only [UInt8.lt_iff_toNat_lt, UInt8.le_iff_toNat_le]
    omega
  toDecidableLE := inferInstance

instance lawfulBytes : LawfulBEq Bytes := inferInstance

/-! ## C strings -/

/-- What is left of a string after a pass through `const char*`. -/
def cstr (s : Bytes) : Bytes := s.takeWhile (· != 0)

theorem cstr_eq_self {s : Bytes} : cstr s = s ↔ 0 ∉ s := by
  unfold cstr
  rw [List.takeWhile_eq_self_iff]
  constructor
  · intro all member
    simpa using all 0 member
  · intro absent b member
    simp only [bne_iff_ne, ne_eq]
    rintro rfl
    exact absent member

theorem zero_notMem_cstr (s : Bytes) : 0 ∉ cstr s := by
  intro member
  simpa using List.mem_takeWhile_imp member

@[simp] theorem cstr_cstr (s : Bytes) : cstr (cstr s) = cstr s :=
  cstr_eq_self.mpr (zero_notMem_cstr s)

/-! ## Numbers -/

/-- `std::isspace` in the "C" locale. -/
def isSpace (b : UInt8) : Bool := b == 32 || (9 ≤ b && b ≤ 13)

def isDigit (b : UInt8) : Bool := 48 ≤ b && b ≤ 57

/-- The value of a list of decimal digits, most significant first. -/
def digitsValue (s : Bytes) : Nat := s.foldl (fun acc b => 10 * acc + (b.toNat - 48)) 0

/-- `std::to_string` of an unsigned integer. -/
def stdToString (n : Nat) : Bytes :=
  if n = 0 then [48] else ((Nat.digits 10 n).map fun d => UInt8.ofNat (48 + d)).reverse

/-- `std::to_string` of an `int`. -/
def intToString (i : Int) : Bytes :=
  if i < 0 then 45 :: stdToString i.natAbs else stdToString i.natAbs

/-- The two exceptions of `std::stoul`. -/
inductive StoulError where
  | invalidArgument
  | outOfRange
  deriving DecidableEq, Repr

/-- `std::stoul` with a 64-bit `unsigned long`: leading white space and one sign
are skipped, the longest run of digits is read, the rest is ignored; a minus
sign negates modulo `2 ^ 64`. -/
def stoul (s : Bytes) : Except StoulError Nat :=
  let s := s.dropWhile isSpace
  let negative := s.head? == some 45
  let s := if s.head? = some 43 ∨ s.head? = some 45 then s.tail else s
  let digits := s.takeWhile isDigit
  if digits = [] then .error .invalidArgument
  else if 2 ^ 64 ≤ digitsValue digits then .error .outOfRange
  else if negative then .ok ((2 ^ 64 - digitsValue digits) % 2 ^ 64)
  else .ok (digitsValue digits)

/-- `std::stoi`: as `std::stoul`, with the range of an `int`. -/
def stoi (s : Bytes) : Except StoulError Int :=
  let s := s.dropWhile isSpace
  let negative := s.head? == some 45
  let s := if s.head? = some 43 ∨ s.head? = some 45 then s.tail else s
  let digits := s.takeWhile isDigit
  let value : Int := if negative then -digitsValue digits else digitsValue digits
  if digits = [] then .error .invalidArgument
  else if value < -2 ^ 31 ∨ 2 ^ 31 ≤ value then .error .outOfRange
  else .ok value

theorem stoul_lt {s : Bytes} {n : Nat} (read : stoul s = .ok n) : n < 2 ^ 64 := by
  simp only [stoul] at read
  split_ifs at read <;> simp only [Except.ok.injEq] at read <;> omega

theorem toNat_digit {d : Nat} (small : d < 10) : (UInt8.ofNat (48 + d)).toNat = 48 + d := by
  rw [UInt8.toNat_ofNat', Nat.mod_eq_of_lt (by omega)]

theorem isDigit_digit {d : Nat} (small : d < 10) : isDigit (UInt8.ofNat (48 + d)) = true := by
  simp only [isDigit, Bool.and_eq_true, decide_eq_true_eq, UInt8.le_iff_toNat_le,
    toNat_digit small]
  exact ⟨by simp, by simp; omega⟩

theorem isSpace_of_isDigit {b : UInt8} (isDigit_ : isDigit b = true) : isSpace b = false := by
  simp only [isDigit, isSpace, Bool.and_eq_true, decide_eq_true_eq, UInt8.le_iff_toNat_le,
    Bool.or_eq_false_iff, beq_eq_false_iff_ne, ne_eq, Bool.and_eq_false_iff,
    decide_eq_false_iff_not, ← UInt8.toNat_inj, UInt8.toNat_ofNat] at isDigit_ ⊢
  omega

theorem isDigit_stdToString {n : Nat} {b : UInt8} (member : b ∈ stdToString n) :
    isDigit b = true := by
  unfold stdToString at member
  split at member
  · rw [List.mem_singleton] at member
    subst member; decide
  · simp only [List.mem_reverse, List.mem_map] at member
    obtain ⟨d, inDigits, rfl⟩ := member
    exact isDigit_digit (Nat.digits_lt_base (by decide) inDigits)

theorem notMem_stdToString {n : Nat} {b : UInt8} (other : isDigit b = false) :
    b ∉ stdToString n := by
  intro member
  rw [isDigit_stdToString member] at other
  cases other

theorem stdToString_ne_nil (n : Nat) : stdToString n ≠ [] := by
  unfold stdToString
  split
  · simp
  · rename_i pos
    simpa [Nat.digits_eq_nil_iff_eq_zero] using pos

theorem digitsValue_stdToString (n : Nat) : digitsValue (stdToString n) = n := by
  unfold stdToString
  split
  · rename_i zero; subst zero; rfl
  · have small : ∀ d ∈ Nat.digits 10 n, d < 10 :=
      fun d inDigits => Nat.digits_lt_base (by decide) inDigits
    have value : ∀ ds : List Nat, (∀ d ∈ ds, d < 10) →
        digitsValue (ds.map fun d => UInt8.ofNat (48 + d)).reverse = Nat.ofDigits 10 ds := by
      intro ds bounded
      induction ds with
      | nil => rfl
      | cons d ds ih =>
          have head := toNat_digit (bounded d (by simp))
          have tail := ih fun e h => bounded e (by simp [h])
          simp only [digitsValue, List.map_cons, List.reverse_cons, List.foldl_append,
            List.foldl_cons, List.foldl_nil, head, Nat.ofDigits_cons] at tail ⊢
          rw [tail]; omega
    rw [value _ small, Nat.ofDigits_digits]

theorem stdToString_injective : Function.Injective stdToString := fun m n same => by
  rw [← digitsValue_stdToString m, same, digitsValue_stdToString]

/-- A text is determined on both sides of the last occurrence of a byte. -/
theorem append_cons_injective {b : UInt8} {before before' after after' : Bytes} (last : b ∉ after)
    (last' : b ∉ after') (same : before ++ b :: after = before' ++ b :: after') :
    before = before' ∧ after = after' := by
  rcases List.append_eq_append_iff.mp same with ⟨mid, shape, rest⟩ | ⟨mid, shape, rest⟩
  · cases mid with
    | nil => exact ⟨by simpa using shape.symm, (List.cons.inj rest).2⟩
    | cons c mid =>
        have later := (List.cons.inj rest).2
        exact absurd (later ▸ List.mem_append_right _ List.mem_cons_self) last
  · cases mid with
    | nil => exact ⟨by simpa using shape, (List.cons.inj rest).2.symm⟩
    | cons c mid =>
        have later := (List.cons.inj rest).2
        exact absurd (later ▸ List.mem_append_right _ List.mem_cons_self) last'

/-- **`std::stoul` reads back what `std::to_string` printed**, for every value a
`std::size_t` can have. -/
theorem stoul_stdToString {n : Nat} (fits : n < 2 ^ 64) : stoul (stdToString n) = .ok n := by
  obtain ⟨b, rest, shape⟩ := List.exists_cons_of_ne_nil (stdToString_ne_nil n)
  have digitHead : isDigit b = true := isDigit_stdToString (n := n) (by simp [shape])
  have notSpace : isSpace b = false := isSpace_of_isDigit digitHead
  have notSign : b ≠ 43 ∧ b ≠ 45 := by
    constructor <;> (rintro rfl; revert digitHead; decide)
  have allDigits : (stdToString n).takeWhile isDigit = stdToString n :=
    List.takeWhile_eq_self_iff.mpr fun _ member => isDigit_stdToString member
  have noSpace : (stdToString n).dropWhile isSpace = stdToString n := by
    rw [shape, List.dropWhile_cons_of_neg (by simp [notSpace])]
  have noSign : ¬ ((stdToString n).head? = some 43 ∨ (stdToString n).head? = some 45) := by
    simp [shape, notSign]
  have notNegative : ((stdToString n).head? == some (45 : UInt8)) = false := by
    simp [shape, notSign.2]
  unfold stoul
  simp only [noSpace, if_neg noSign, allDigits, digitsValue_stdToString,
    if_neg (stdToString_ne_nil n), if_neg (Nat.not_le.mpr fits), notNegative]
  simp

/-! ## Hexadecimal digits -/

/-- An upper-case digit. -/
def hexDigit (n : Nat) : UInt8 :=
  UInt8.ofNat (if n < 10 then 48 + n else 55 + n)

theorem toNat_hexDigit {n : Nat} (small : n < 16) :
    (hexDigit n).toNat = if n < 10 then 48 + n else 55 + n := by
  unfold hexDigit
  split <;> rw [UInt8.toNat_ofNat', Nat.mod_eq_of_lt (by omega)]

theorem hexDigit_inj {m n : Nat} (hm : m < 16) (hn : n < 16) (same : hexDigit m = hexDigit n) :
    m = n := by
  have values := congrArg UInt8.toNat same
  rw [toNat_hexDigit hm, toNat_hexDigit hn] at values
  split at values <;> split at values <;> omega

theorem isSpace_hexDigit {n : Nat} (small : n < 16) : isSpace (hexDigit n) = false := by
  have value := toNat_hexDigit small
  simp only [isSpace, Bool.or_eq_false_iff, beq_eq_false_iff_ne, ne_eq, Bool.and_eq_false_iff,
    decide_eq_false_iff_not, UInt8.le_iff_toNat_le, ← UInt8.toNat_inj, UInt8.toNat_ofNat]
  split at value <;> omega

/-! ## Searching -/

/-- `std::string::rfind`: the position of the last occurrence of `pat`. -/
def rfind (pat : Bytes) : Bytes → Option Nat
  | [] => if pat = [] then some 0 else none
  | b :: rest =>
      match rfind pat rest with
      | some i => some (i + 1)
      | none => if pat.isPrefixOf (b :: rest) then some 0 else none

theorem rfind_eq_none {pat s : Bytes} : rfind pat s = none ↔ ¬ pat <:+: s := by
  induction s with
  | nil => simp [rfind, List.infix_nil]
  | cons b rest ih =>
      simp only [rfind, List.infix_cons_iff]
      split
      · rename_i i found
        have : pat <:+: rest := by
          by_contra absent
          rw [ih.mpr absent] at found
          cases found
        simp [this]
      · rename_i absent
        simp [ih.mp absent]

/-- A pattern whose last occurrence starts where `head` ends. -/
theorem rfind_append {pat tail : Bytes} (head : Bytes) (start : rfind pat (pat ++ tail) = some 0) :
    rfind pat (head ++ (pat ++ tail)) = some head.length := by
  induction head with
  | nil => simpa using start
  | cons b head ih => simp [rfind, ih]

/-- What occurs has a last occurrence. -/
theorem exists_last_occurrence {pat s : Bytes} (pos : pat ≠ []) (occurs : pat <:+: s) :
    ∃ x y, s = x ++ (pat ++ y) ∧ ¬ pat <:+: y := by
  obtain ⟨x, y, rfl⟩ := occurs
  induction h : y.length using Nat.strong_induction_on generalizing x y with
  | _ n ih =>
      by_cases again : pat <:+: y
      · obtain ⟨x', y', rfl⟩ := again
        have shorter : y'.length < n := by
          have := List.length_pos_of_ne_nil pos
          simp only [List.length_append] at h
          omega
        obtain ⟨x₁, y₁, same, free⟩ := ih _ shorter (x ++ pat ++ x') y' rfl
        exact ⟨x₁, y₁, by simpa [List.append_assoc] using same, free⟩
      · exact ⟨x, y, by simp [List.append_assoc], again⟩

/-! ## UTF-8 -/

/-- What must follow a first byte: how many bytes, and the least and the greatest for the first of
them. -/
def utf8Tail (b : UInt8) : Option (Nat × UInt8 × UInt8) :=
  if b ≤ 0x7F then some (0, 0x80, 0xBF)
  else if 0xC2 ≤ b && b ≤ 0xDF then some (1, 0x80, 0xBF)
  else if b == 0xE0 then some (2, 0xA0, 0xBF)
  else if b == 0xED then some (2, 0x80, 0x9F)
  else if 0xE1 ≤ b && b ≤ 0xEF then some (2, 0x80, 0xBF)
  else if b == 0xF0 then some (3, 0x90, 0xBF)
  else if 0xF1 ≤ b && b ≤ 0xF3 then some (3, 0x80, 0xBF)
  else if b == 0xF4 then some (3, 0x80, 0x8F)
  else none

/-- The rest of a text of which `owed` bytes of a character are still to come. -/
def utf8From : Nat × UInt8 × UInt8 → Bytes → Bool
  | (owed, _), [] => owed == 0
  | (0, _), b :: rest =>
      match utf8Tail b with
      | some next => utf8From next rest
      | none => false
  | (owed + 1, least, greatest), b :: rest =>
      (least ≤ b && b ≤ greatest) && utf8From (owed, 0x80, 0xBF) rest

/-- The text is UTF-8: no character is cut off, overlong, a surrogate or too great. -/
def utf8 (s : Bytes) : Bool := utf8From (0, 0x80, 0xBF) s

/-! ## Words of a stream -/

/-- What `f >> word` extracts from a stream, one word after the other until the end is met,
`word` being what was read so far of the first. White space at the end leaves one more
extraction, of nothing. -/
def words (word : Bytes) : Bytes → List Bytes
  | [] => [word]
  | b :: rest =>
      if isSpace b then
        if word = [] then words [] rest else word :: words [] rest
      else words (word ++ [b]) rest

/-- The first word, empty if there is none. -/
def firstWord (s : Bytes) : Bytes := (words [] s).headD []

theorem filter_words_append (word s : Bytes) : (words word s).filter (· ≠ []) =
    ((s.splitOnP isSpace).modifyHead (word ++ ·)).filter (· ≠ []) := by
  induction s generalizing word with
  | nil => simp [words]
  | cons b rest ih =>
      rw [List.splitOnP_cons_eq_if_modifyHead]
      by_cases space : isSpace b = true
      · have same : (rest.splitOnP isSpace).modifyHead ([] ++ ·) = rest.splitOnP isSpace :=
          congrFun List.modifyHead_id _
        have tail := ih []
        rw [same] at tail
        by_cases empty : word = []
        · subst empty
          simpa [words, space] using tail
        · simpa [words, space, empty] using tail
      · have grown : (word ++ [b] ++ ·) = (word ++ ·) ∘ List.cons b := by
          funext t
          simp
        simp only [words, space, Bool.false_eq_true, if_false, List.modifyHead_modifyHead]
        rw [ih (word ++ [b]), grown]

/-- The words are the pieces between white space that are not empty. -/
theorem filter_words (s : Bytes) :
    (words [] s).filter (· ≠ []) = (s.splitOnP isSpace).filter (· ≠ []) := by
  have whole := filter_words_append [] s
  rwa [show (s.splitOnP isSpace).modifyHead ([] ++ ·) = s.splitOnP isSpace from
    congrFun List.modifyHead_id _] at whole

theorem mem_words {w s : Bytes} (pos : w ≠ []) : w ∈ words [] s ↔ w ∈ s.splitOnP isSpace := by
  have same : w ∈ (words [] s).filter (· ≠ []) ↔ w ∈ (s.splitOnP isSpace).filter (· ≠ []) := by
    rw [filter_words]
  simpa [pos] using same

end Piac.Theory.CppString
