/-
# Client.Words — the words of a command

`tokenize` cuts a line at every single blank, `wordcount` counts where a word begins. The
two agree on lines without a blank in front or next to another one, and there the tokens
are the words (`words_are_words`); on every other line an empty token is an argument.
`countLoop` is the loop of `wordcount` with what it passes to `std::isspace`: a `char`,
which is negative for a byte above 0x7f, where the function is not defined but for EOF.
-/
import Piac.Theory.Fields
import Piac.Client.Prompt

namespace Piac

set_option autoImplicit false

open Piac.Theory Piac.Theory.CppString Piac.Theory.Fields Relation

/-! ## The loop of `wordcount` -/

/-- A byte as the `int` its `char` is promoted to. -/
def promoted (b : UInt8) : Int := if b.toNat < 128 then b.toNat else b.toNat - 256

/-- What `std::isspace` is defined on: an `unsigned char`, or EOF. -/
def IsspaceDefined (ch : Int) : Prop := ch = -1 ∨ (0 ≤ ch ∧ ch ≤ 255)

/-- The words counted from a byte on, and the values that `std::isspace` is called with. -/
def countLoop (inSpaces : Bool) : Bytes → Nat × List Int
  | [] => (0, [])
  | b :: str =>
      if b = 0 then (0, [])
      else if isSpace b then
        let rest := countLoop true str
        (rest.1, promoted b :: rest.2)
      else
        let rest := countLoop false str
        (if inSpaces then rest.1 + 1 else rest.1, promoted b :: rest.2)

theorem countLoop_words (word s : Bytes) (text : 0 ∉ s) :
    (countLoop (word = []) s).1 + (if word = [] then 0 else 1) =
      ((words word s).filter (· ≠ [])).length := by
  induction s generalizing word with
  | nil => by_cases empty : word = [] <;> simp [countLoop, words, empty]
  | cons b s ih =>
      rw [List.mem_cons, not_or] at text
      have nonzero : ¬ b = 0 := fun eq => text.1 eq.symm
      by_cases space : isSpace b = true
      · have next := ih [] text.2
        by_cases empty : word = []
        · simpa [countLoop, words, nonzero, space, empty] using next
        · simpa [countLoop, words, nonzero, space, empty] using next
      · have next := ih (word ++ [b]) text.2
        by_cases empty : word = []
        · simpa [countLoop, words, nonzero, space, empty] using next
        · simpa [countLoop, words, nonzero, space, empty] using next

/-- **`wordcount` is its loop**, and counts the words. -/
theorem wordcount_eq {s : Bytes} (text : 0 ∉ s) :
    wordcount s = (countLoop true s).1 ∧ wordcount s = (runs isSpace s).length := by
  have counted := countLoop_words [] s text
  rw [wordcount, cstr_eq_self.mpr text]
  refine ⟨by simpa using counted.symm, ?_⟩
  rw [filter_words, filter_splitOnP]

/-- `std::isspace` is called with every byte. -/
theorem countLoop_values (inSpaces : Bool) {s : Bytes} (text : 0 ∉ s) :
    (countLoop inSpaces s).2 = s.map promoted := by
  induction s generalizing inSpaces with
  | nil => rfl
  | cons b s ih =>
      rw [List.mem_cons, not_or] at text
      have nonzero : ¬ b = 0 := fun eq => text.1 eq.symm
      rw [countLoop, if_neg nonzero, List.map_cons]
      split
      · exact congrArg (promoted b :: ·) (ih true text.2)
      · exact congrArg (promoted b :: ·) (ih false text.2)

theorem isspaceDefined_promoted (b : UInt8) :
    IsspaceDefined (promoted b) ↔ b < 128 ∨ b = 255 := by
  have size := b.toNat_lt
  rw [IsspaceDefined, promoted, UInt8.lt_iff_toNat_lt, ← UInt8.toNat_inj]
  show _ ↔ b.toNat < 128 ∨ b.toNat = 255
  split
  · omega
  · omega

/-! ## Commands -/

/-- The commands whose line is tokenized. -/
inductive WordCommand where
  | server
  | matrix
  | monerod
  | msg
  deriving DecidableEq

/-- What `main` does with the line of a command. -/
def WordCommand.line {O : Matrix.Mtx} : WordCommand → Bytes → Prompt.Op O Unit
  | .server => Prompt.serverLine
  | .matrix => Prompt.matrixLine
  | .monerod => Prompt.monerodLine
  | .msg => Prompt.msgLine

/-- **Words are words** in a line: its tokens are its words, as many as `wordcount` has
counted without a call that is not defined, and it does what it does without the blanks
that were inserted in front of a word. -/
structure WordsAreWords (s : Bytes) : Prop where
  tokens : tokenize s = runs isSpace s
  count : (tokenize s).length = wordcount s
  defined : ∀ ch ∈ (countLoop true s).2, IsspaceDefined ch
  line : ∀ t, ReflTransGen (Widened isSpace) t s → ∀ (command : WordCommand) (O : Matrix.Mtx),
    (command.line s : Prompt.Op O Unit) = command.line t
  dbRm : ∀ t, ReflTransGen (Widened isSpace) t s → ∀ X author db myHashes,
    dbRm X author db s myHashes = dbRm X author db t myHashes

theorem defined_iff {s : Bytes} (text : 0 ∉ s) :
    (∀ ch ∈ (countLoop true s).2, IsspaceDefined ch) ↔ ∀ b ∈ s, b < 128 ∨ b = 255 := by
  rw [countLoop_values true text, List.forall_mem_map]
  exact forall₂_congr fun b _ => isspaceDefined_promoted b

/-- **Words are words exactly in a line** without a blank in front or next to another one, and
without a byte from 0x80 to 0xfe; and blanks that are inserted in front of a word never
leave the tokens of a line as they are. -/
theorem words_are_words (s : Bytes) (text : 0 ∉ s) :
    (WordsAreWords s ↔ Spaced isSpace s ∧ ∀ b ∈ s, b < 128 ∨ b = 255) ∧
      ∀ t, ReflTransGen (Widened isSpace) t s → (tokenize t = tokenize s ↔ t = s) := by
  refine ⟨⟨fun words => ⟨?_, ?_⟩, fun ⟨spaced, ascii⟩ => ?_⟩, fun t wider => ?_⟩
  · exact (fields_eq_runs s).mp words.tokens
  · exact (defined_iff text).mp words.defined
  · have tokens : tokenize s = runs isSpace s := (fields_eq_runs s).mpr spaced
    refine ⟨tokens, ?_, (defined_iff text).mpr ascii, fun t wider => ?_, fun t wider => ?_⟩
    · rw [tokens, (wordcount_eq text).2]
    · rw [spaced.eq_of_widened wider]
      exact fun _ _ => rfl
    · rw [spaced.eq_of_widened wider]
      exact fun _ _ _ _ => rfl
  · exact fields_widened wider

theorem words_are_words_matrix : WordsAreWords (bytes "matrix m.org alice pw") ∧
    (tokenize (bytes "matrix m.org alice pw") = tokenize (bytes "matrix m.org alice pw") ↔
      bytes "matrix m.org alice pw" = bytes "matrix m.org alice pw") :=
  have line := words_are_words (bytes "matrix m.org alice pw") (by decide +kernel)
  ⟨line.1.mpr (by
    unfold Spaced
    decide +kernel), line.2 _ .refl⟩

/-- Two blanks make an empty host of a `server` line, and an empty hash of a `db rm`
command; a byte of an accented letter reaches `std::isspace` as a negative number. -/
theorem empty_token :
    tokenize (bytes "server  localhost") = [bytes "server", [], bytes "localhost"] ∧
      wordcount (bytes "server  localhost") = 2 ∧
      ReflTransGen (Widened isSpace) (bytes "server localhost") (bytes "server  localhost") ∧
      (∀ c : Cli, (c.server (bytes "server localhost")).piacHost = bytes "localhost" ∧
        (c.server (bytes "server  localhost")).piacHost = []) ∧
      tokenize (trim (bytes "A  B")) = [bytes "A", [], bytes "B"] ∧
      (countLoop true [195, 169]).2 = [-61, -87] ∧ ¬ IsspaceDefined (-61) ∧
      ¬ ∀ s, 0 ∉ s → WordsAreWords s := by
  refine ⟨by decide +kernel, by decide +kernel, ?_, fun c => ?_, by decide +kernel,
    by decide +kernel, ?_, fun all => ?_⟩
  · exact .single ⟨bytes "server ", bytes "localhost", 32, by decide +kernel, by decide +kernel,
      by decide +kernel, .inr (.inl ⟨32, by decide +kernel, by decide +kernel⟩)⟩
  · have one : tokenize (bytes "server localhost") = [bytes "server", bytes "localhost"] := by
      decide +kernel
    have two : tokenize (bytes "server  localhost") = [bytes "server", [], bytes "localhost"] := by
      decide +kernel
    have plain : ¬ bytes "localhost" = bytes "\"\"" := by decide +kernel
    have empty : ¬ ([] : Bytes) = bytes "\"\"" := by decide +kernel
    constructor
    · rw [Cli.server, one]
      dsimp only
      rw [if_neg plain]
    · rw [Cli.server, two]
      dsimp only
      rw [if_neg empty]
  · rw [IsspaceDefined]
    omega
  · have words := all (bytes "server  localhost") (by decide +kernel)
    exact absurd words.count (by decide +kernel)

end Piac
