/-
# Theory.Ratchet — a session that one writes with and many read

The session of the sender changes with each text that it encrypts, that of a reader with
each cipher that it decrypts. A reader joins with a key that the sender shares, and from
then on follows the session: `Lawful` collects what that relation is asked to be.

* `Lawful.reads_later`: a reader who follows reads whatever the sender has encrypted since,
  in any order and any number of times, and whatever else it has decrypted in between.
-/
import Mathlib.Logic.Relation

namespace Piac.Theory

set_option autoImplicit false

open Relation

universe u v w x y

structure Ratchet (Sender : Type u) (Reader : Type v) (Key : Type w) (Text : Type x)
    (Cipher : Type y) where
  share : Sender → Key
  join : Key → Option Reader
  encrypt : Sender → Text → Cipher × Sender
  /-- The session after a cipher has been decrypted; `none` if it cannot be. -/
  advance : Reader → Cipher → Option Reader
  read : Reader → Cipher → Option Text

namespace Ratchet

variable {Sender : Type u} {Reader : Type v} {Key : Type w} {Text : Type x} {Cipher : Type y}
  (R : Ratchet Sender Reader Key Text Cipher)

/-- The sender's session after any texts. -/
def Later : Sender → Sender → Prop :=
  ReflTransGen fun sender next => ∃ text, next = (R.encrypt sender text).2

/-- A reader's session after any ciphers. -/
def Further : Reader → Reader → Prop :=
  ReflTransGen fun reader next => ∃ cipher, R.advance reader cipher = some next

/-- A reader follows the session whose key it joined with, whatever is encrypted with that or
decrypted by the reader, and reads what is encrypted. -/
structure Lawful (Follows : Reader → Sender → Prop) : Prop where
  joins : ∀ sender, ∃ reader, R.join (R.share sender) = some reader ∧ Follows reader sender
  reads : ∀ {reader sender}, Follows reader sender → ∀ text,
    (∃ next, R.advance reader (R.encrypt sender text).1 = some next) ∧
      R.read reader (R.encrypt sender text).1 = some text
  later : ∀ {reader sender}, Follows reader sender → ∀ text, Follows reader (R.encrypt sender text).2
  further : ∀ {reader sender}, Follows reader sender → ∀ {cipher next},
    R.advance reader cipher = some next → Follows next sender

variable {R} {Follows : Reader → Sender → Prop} (lawful : R.Lawful Follows)

include lawful

theorem Lawful.follows {reader reader' : Reader} {sender sender' : Sender}
    (follows : Follows reader sender) (further : R.Further reader reader')
    (later : R.Later sender sender') : Follows reader' sender' := by
  have reader_ : Follows reader' sender := by
    induction further with
    | refl => exact follows
    | tail _ step ih =>
        obtain ⟨cipher, decrypted⟩ := step
        exact lawful.further ih decrypted
  induction later with
  | refl => exact reader_
  | tail _ step ih =>
      obtain ⟨text, rfl⟩ := step
      exact lawful.later ih text

/-- **Whoever has joined reads all that follows.** -/
theorem Lawful.reads_later {reader reader' : Reader} {sender sender' : Sender}
    (follows : Follows reader sender) (further : R.Further reader reader')
    (later : R.Later sender sender') (text : Text) :
    (∃ next, R.advance reader' (R.encrypt sender' text).1 = some next) ∧
      R.read reader' (R.encrypt sender' text).1 = some text :=
  lawful.reads (lawful.follows follows further later) text

end Ratchet

end Piac.Theory
