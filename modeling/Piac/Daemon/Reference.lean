/-
# Daemon.Reference — a platform to run the daemon on

The libraries as far as a few short ads need them: prices are whole numbers, the
texts of the ads are empty, so that they have no terms, and the digests of their
entries are tabulated. A daemon on `reference` computes; results that speak of some
run, or of some input on which a result does not hold, are shown on it.
-/
import Piac.Daemon.Document
import Piac.Theory.JsonText

namespace Piac

set_option autoImplicit false

open Piac.Theory.CppString Piac.Theory.Json

namespace Reference

/-- An ad with nothing in it but its id. -/
def ad (id : Int32) : Document Int :=
  { id, title := [], author := [], description := [], price := 0, category := [],
    condition := [], shipping := [], format := [], location := [], keywords := [] }

/-- The digest of a user, without zero byte. -/
def alice : Bytes := bytes "0123456789ABCDEF0123456789ABCDEF"

/-- A digest that starts with a zero byte. -/
def nobody : Bytes := 0 :: bytes "123456789ABCDEF0123456789ABCDEF"

/-- The entry of an ad with empty texts. -/
def entry (id author : String) : Bytes :=
  bytes "\x7b\"id\":" ++ bytes id ++ bytes ",\"title\":\"\",\"author\":\"" ++ bytes author ++
    bytes ("\",\"description\":\"\",\"price\":0.0,\"category\":\"\",\"condition\":\"\"," ++
      "\"shipping\":\"\",\"format\":\"\",\"location\":\"\",\"keywords\":\"\"\x7d")

/-- The entry of such an ad of `alice`. -/
def aliceEntry (id : String) : Bytes := entry id "0123456789ABCDEF0123456789ABCDEF"

/-- SHA-256 of the entries with the ids 1 and 2, of `alice` and of `nobody`. -/
def digests : List (Bytes × Bytes) :=
  [(aliceEntry "1",
     [211, 93, 179, 94, 85, 193, 82, 73, 136, 255, 161, 125, 80, 79, 227, 44,
      13, 21, 137, 137, 216, 118, 134, 174, 13, 12, 136, 21, 16, 180, 243, 16]),
   (aliceEntry "2",
     [149, 179, 22, 169, 19, 213, 252, 83, 224, 252, 245, 101, 197, 183, 144, 41,
      147, 214, 207, 204, 14, 24, 13, 253, 104, 201, 205, 228, 188, 142, 146, 128]),
   (entry "1" "",
     [188, 143, 245, 1, 73, 76, 167, 188, 224, 143, 161, 21, 106, 201, 210, 27,
      109, 236, 47, 13, 79, 110, 146, 199, 18, 176, 208, 5, 225, 245, 203, 241]),
   (entry "2" "",
     [186, 55, 12, 132, 247, 191, 128, 105, 9, 222, 7, 226, 208, 62, 52, 191,
      53, 33, 247, 5, 54, 83, 88, 225, 226, 92, 25, 22, 5, 56, 107, 16])]

def sha256 (msg : Bytes) : Bytes :=
  (digests.lookup msg).getD (List.replicate 32 0)

theorem sha256_length (msg : Bytes) : (sha256 msg).length = 32 := by
  have sized : ∀ e ∈ digests, e.2.length = 32 := by decide
  unfold sha256
  cases found : digests.lookup msg with
  | none => rfl
  | some digest =>
      obtain ⟨before, after, shape, -⟩ := List.lookup_eq_some_iff.mp found
      exact sized (msg, digest) (by rw [shape]; simp)

/-- An endpoint is a host, a colon and a port number. -/
def connectable (addr : Bytes) : Bool :=
  match rfind [58] addr with
  | none => false
  | some u => u != 0 && addr.drop (u + 1) != [] && (addr.drop (u + 1)).all isDigit

theorem connectable_localhost (digits : Bytes) (some_ : digits ≠ [])
    (all : ∀ b ∈ digits, isDigit b = true) :
    connectable (bytes "localhost:" ++ digits) = true := by
  have noColon : rfind [58] digits = none := by
    rw [rfind_eq_none]
    intro occurs
    have colon := all 58 (occurs.subset (by simp))
    cases colon
  have start : rfind [58] ([58] ++ digits) = some 0 := by
    simp [rfind, noColon]
  have found := rfind_append (bytes "localhost") start
  have shape : bytes "localhost:" ++ digits = bytes "localhost" ++ ([58] ++ digits) := by
    rw [← List.append_assoc]
    exact congrArg (· ++ digits) (by decide)
  have rest : (bytes "localhost" ++ ([58] ++ digits)).drop ((bytes "localhost").length + 1) =
      digits := by
    have length : (bytes "localhost").length + 1 = (bytes "localhost" ++ [58]).length := by decide
    rw [length, ← List.append_assoc, List.drop_left]
  rw [connectable, shape, found]
  simp only [rest, bne_iff_ne, Bool.and_eq_true, ne_eq, List.all_eq_true]
  exact ⟨⟨by decide, some_⟩, all⟩

end Reference

open Reference in
/-- The platform, as a Release or as a Debug build. -/
def reference (ndebug : Bool) : Platform where
  ndebug
  sha256
  sha256_length
  Num := Int
  ofInt := id
  parse := Theory.JsonText.read
  write := Theory.JsonText.write
  reread := id
  parse_write members scalars := by
    rw [Value.map_mapNum_id, Theory.JsonText.read_write scalars]
  write_ne_nil := Theory.JsonText.write_ne_nil
  zero_notMem_write := Theory.JsonText.zero_notMem_write
  indexText _ _ := []
  indexText_head _ _ _ member := absurd member List.not_mem_nil
  query _ _ := []
  connectable

end Piac
