/-
# Daemon.StringUtil — trimming, splitting and hex encoding

`trim`, `tokenize`, `split` and `wordcount` of the string utilities and `hex` of the cryptography
utilities. `hex` is injective (`hex_injective`) and its output survives trimming
and is one token, whatever follows behind a blank (`tokenize_trim_hex_append`), so the hash of
a `db rm` command is the hash that was listed.
-/
import Piac.Theory.CppString

namespace Piac

set_option autoImplicit false

open Piac.Theory.CppString

/-- `piac::trim`: white space removed at both ends. -/
def trim (s : Bytes) : Bytes :=
  ((s.dropWhile isSpace).reverse.dropWhile isSpace).reverse

/-- `piac::tokenize`: the pieces between white-space bytes. The iterator yields an
empty piece between neighbouring blanks and before a leading one, but none after
the last. -/
def tokenize (s : Bytes) : List Bytes :=
  let pieces := s.splitOnP isSpace
  if pieces.getLast? = some [] then pieces.dropLast else pieces

/-- `piac::hex`: two upper-case digits for each byte. -/
def hex (digest : Bytes) : Bytes :=
  digest.flatMap fun b => [hexDigit (b.toNat / 16), hexDigit (b.toNat % 16)]

/-- `piac::split` at a single character: what stands before and after its last occurrence. -/
def split (s delim : Bytes) : Bytes × Bytes :=
  let s := trim s
  match rfind delim s with
  | none => (s, [])
  | some p => (s.take p, s.drop (p + 1))

/-- `piac::wordcount`. -/
def wordcount (s : Bytes) : Nat := ((words [] (cstr s)).filter (· ≠ [])).length

theorem hex_injective : Function.Injective hex := by
  intro s t same
  induction s generalizing t with
  | nil => cases t with
    | nil => rfl
    | cons c t => simp [hex] at same
  | cons b s ih => cases t with
    | nil => simp [hex] at same
    | cons c t =>
        simp only [hex, List.flatMap_cons, List.cons_append, List.nil_append,
          List.cons.injEq] at same
        obtain ⟨high, low, rest⟩ := same
        have hb := b.toNat_lt
        have hc := c.toNat_lt
        have high := hexDigit_inj (by omega) (by omega) high
        have low := hexDigit_inj (by omega) (by omega) low
        have : b.toNat = c.toNat := by omega
        rw [UInt8.toNat_inj.mp this, ih rest]

theorem length_hex (digest : Bytes) : (hex digest).length = 2 * digest.length := by
  induction digest with
  | nil => rfl
  | cons b rest ih =>
      rw [hex, List.flatMap_cons, List.length_append, ← hex, ih]
      simp only [List.length_cons, List.length_nil]
      omega

theorem isSpace_of_mem_hex {s : Bytes} {b : UInt8} (member : b ∈ hex s) : isSpace b = false := by
  simp only [hex, List.mem_flatMap, List.mem_cons, List.not_mem_nil, or_false] at member
  obtain ⟨c, -, rfl | rfl⟩ := member
  · exact isSpace_hexDigit (by have := c.toNat_lt; omega)
  · exact isSpace_hexDigit (Nat.mod_lt _ (by decide))

theorem dropWhile_eq_self_of_plain {s : Bytes} (plain : ∀ b ∈ s, isSpace b = false) :
    s.dropWhile isSpace = s := by
  cases s with
  | nil => rfl
  | cons b s => exact List.dropWhile_cons_of_neg (by simp [plain b])

/-- Trimming takes nothing off the plain front of a text. -/
theorem trim_append {front rest : Bytes} (plain : ∀ b ∈ front, isSpace b = false) (pos : front ≠ []) :
    trim (front ++ rest) = front ++ (rest.reverse.dropWhile isSpace).reverse := by
  obtain ⟨b, front', rfl⟩ := List.exists_cons_of_ne_nil pos
  have kept : (b :: front' ++ rest).dropWhile isSpace = b :: front' ++ rest :=
    List.dropWhile_cons_of_neg (by simp [plain b])
  have back : (b :: front').reverse.dropWhile isSpace = (b :: front').reverse :=
    dropWhile_eq_self_of_plain fun b member => plain b (List.mem_reverse.mp member)
  rw [trim, kept, List.reverse_append, List.dropWhile_append, back]
  split
  · rename_i blank
    rw [List.isEmpty_iff.mp blank]
    simp
  · simp

/-- No piece is longer than the whole. -/
theorem length_le_of_mem_splitOnP {p : UInt8 → Bool} {s piece : Bytes} (member : piece ∈ s.splitOnP p) :
    piece.length ≤ s.length := by
  induction s generalizing piece with
  | nil => simp_all
  | cons b rest ih =>
      rw [List.splitOnP_cons_eq_if_modifyHead] at member
      split at member
      · rcases List.mem_cons.mp member with rfl | later
        · simp
        · exact (ih later).trans (Nat.le_succ _)
      · obtain ⟨head, tail, pieces⟩ := List.exists_cons_of_ne_nil (List.splitOnP_ne_nil p rest)
        rw [pieces] at member ih
        rcases List.mem_cons.mp member with rfl | later
        · exact Nat.succ_le_succ (ih List.mem_cons_self)
        · exact (ih (List.mem_cons_of_mem _ later)).trans (Nat.le_succ _)

theorem tokenize_eq_singleton {s : Bytes} (plain : ∀ b ∈ s, isSpace b = false) (pos : s ≠ []) :
    tokenize s = [s] := by
  have single : s.splitOnP isSpace = [s] := List.splitOnP_eq_singleton (by simpa using plain)
  simp [tokenize, single, pos]

/-- Behind the hex digits of a digest and a blank, every other token is shorter than what follows
the digits. -/
theorem tokenize_trim_hex_append {digest rest : Bytes} (pos : digest ≠ [])
    (blank : ∀ b ∈ rest.head?, isSpace b = true) :
    hex digest ∈ tokenize (trim (hex digest ++ rest)) ∧
      ∀ token ∈ tokenize (trim (hex digest ++ rest)), token = hex digest ∨ token.length < rest.length := by
  have plain : ∀ b ∈ hex digest, isSpace b = false := fun _ => isSpace_of_mem_hex
  have hexPos : hex digest ≠ [] := by
    cases digest with
    | nil => exact absurd rfl pos
    | cons b rest => simp [hex]
  have shorter : (rest.reverse.dropWhile isSpace).reverse <+: rest :=
    List.reverse_suffix.mp (by simpa using List.dropWhile_suffix _)
  rw [trim_append plain hexPos]
  generalize (rest.reverse.dropWhile isSpace).reverse = trimmed at shorter
  cases trimmed with
  | nil => rw [List.append_nil, tokenize_eq_singleton plain hexPos]; simp
  | cons b trimmed =>
      obtain ⟨rest', rfl⟩ := shorter
      have pieces : (hex digest ++ b :: trimmed).splitOnP isSpace =
          hex digest :: trimmed.splitOnP isSpace :=
        List.splitOnP_append_cons_of_forall_mem plain b (blank b rfl) trimmed
      have sub : ∀ token ∈ tokenize (hex digest ++ b :: trimmed),
          token ∈ hex digest :: trimmed.splitOnP isSpace := fun token member => by
        rw [tokenize, pieces] at member
        split at member
        · exact List.mem_of_mem_dropLast member
        · exact member
      refine ⟨?_, fun token member => (List.mem_cons.mp (sub token member)).imp_right fun later => ?_⟩
      · rw [tokenize, pieces]
        split
        · rw [List.dropLast_cons_of_ne_nil (List.splitOnP_ne_nil _ _)]
          exact List.mem_cons_self
        · exact List.mem_cons_self
      · have := length_le_of_mem_splitOnP later
        simp only [List.cons_append, List.length_cons, List.length_append]
        omega
end Piac
