/-
# Theory.Json — JSON values and the members of an object

The values a JSON parser hands out, over any type of numbers that are not
integers, and the four partial reads a program makes of them. Reading a missing
member, a member of something that is no object, or a value of another type is
`none`.
-/
import Piac.Theory.CppString

namespace Piac.Theory.Json

set_option autoImplicit false

open Piac.Theory.CppString (Bytes)

inductive Value (Num : Type) where
  | null
  | bool (b : Bool)
  | int (i : Int)
  | num (x : Num)
  | str (s : Bytes)
  | arr (items : List (Value Num))
  | obj (members : List (Bytes × Value Num))

namespace Value

variable {Num : Type}

/-- The first member of that name. -/
def member (name : Bytes) : Value Num → Option (Value Num)
  | .obj members => members.lookup name
  | _ => none

/-- An integer in the range of a 32-bit `int`. -/
def asInt32 : Value Num → Option Int32
  | .int i => if -2 ^ 31 ≤ i ∧ i < 2 ^ 31 then some (Int32.ofInt i) else none
  | _ => none

def asString : Value Num → Option Bytes
  | .str s => some s
  | _ => none

/-- A number of either kind, integers by conversion. -/
def asNumber (ofInt : Int → Num) : Value Num → Option Num
  | .num x => some x
  | .int i => some (ofInt i)
  | _ => none

/-- A 32-bit integer, a number or a string. -/
def Scalar : Value Num → Prop
  | .int i => -2 ^ 31 ≤ i ∧ i < 2 ^ 31
  | .num _ => True
  | .str _ => True
  | _ => False

/-- The numbers of a scalar replaced. -/
def mapNum (f : Num → Num) : Value Num → Value Num
  | .num x => .num (f x)
  | v => v

theorem map_mapNum_id (members : List (Bytes × Value Num)) :
    members.map (fun m => (m.1, m.2.mapNum id)) = members := by
  refine List.map_id'' (fun m => ?_) members
  obtain ⟨name, v⟩ := m
  cases v <;> rfl

theorem asInt32_toInt (i : Int32) : (Value.int i.toInt : Value Num).asInt32 = some i := by
  have low := Int32.le_toInt i
  have high := Int32.toInt_lt i
  simp only [asInt32]
  rw [if_pos ⟨by simpa using low, by simpa using high⟩, Int32.ofInt_toInt]

theorem scalar_int32 (i : Int32) : (Value.int i.toInt : Value Num).Scalar := by
  have low := Int32.le_toInt i
  have high := Int32.toInt_lt i
  exact ⟨by simpa using low, by simpa using high⟩

end Value

end Piac.Theory.Json
