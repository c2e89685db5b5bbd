/-
# Daemon.Document — an ad, its JSON text, and the way back

`Document::serialize` writes every string through `c_str()`, so up to its first
zero byte, and `Document::deserialize` reads every string through a C string
again. What a document becomes on the way there and back is `Document.stored`
(`deserialize_serialize`); it keeps a string exactly when the string has no zero
byte.
-/
import Piac.Daemon.Platform

namespace Piac

set_option autoImplicit false

open Piac.Theory.CppString Piac.Theory.Json

/-- `piac::Document`. -/
structure Document (Num : Type) where
  id : Int32
  title : Bytes
  author : Bytes
  description : Bytes
  price : Num
  category : Bytes
  condition : Bytes
  shipping : Bytes
  format : Bytes
  location : Bytes
  keywords : Bytes
  deriving DecidableEq

namespace Document

variable (X : Platform)

/-- The members `Document::serialize` hands to the writer, in its order. -/
def members (d : Document X.Num) : List (Bytes × Value X.Num) :=
  [(bytes "id", .int d.id.toInt),
   (bytes "title", .str (cstr d.title)),
   (bytes "author", .str (cstr d.author)),
   (bytes "description", .str (cstr d.description)),
   (bytes "price", .num d.price),
   (bytes "category", .str (cstr d.category)),
   (bytes "condition", .str (cstr d.condition)),
   (bytes "shipping", .str (cstr d.shipping)),
   (bytes "format", .str (cstr d.format)),
   (bytes "location", .str (cstr d.location)),
   (bytes "keywords", .str (cstr d.keywords))]

/-- `JSONBase::serialize` of a document: the text of its object. -/
def serialize (d : Document X.Num) : Bytes :=
  cstr (X.write (.obj (members X d)))

/-- A rapidjson accessor: `none` fails an assertion. -/
def orAssert {α : Type} : Option α → Except Fault α
  | some a => .ok a
  | none => .error .json

def getInt (obj : Value X.Num) (name : String) : Except Fault Int32 :=
  orAssert ((obj.member (bytes name)).bind Value.asInt32)

/-- A string member, through `const char*` into the setter's `std::string`. -/
def getString (obj : Value X.Num) (name : String) : Except Fault Bytes :=
  orAssert (((obj.member (bytes name)).bind Value.asString).map cstr)

def getDouble (obj : Value X.Num) (name : String) : Except Fault X.Num :=
  orAssert ((obj.member (bytes name)).bind (Value.asNumber X.ofInt))

/-- `Document::deserialize( const rapidjson::Value& )`. -/
def ofValue (obj : Value X.Num) : Except Fault (Document X.Num) := do
  let id ← getInt X obj "id"
  let title ← getString X obj "title"
  let author ← getString X obj "author"
  let description ← getString X obj "description"
  let price ← getDouble X obj "price"
  let category ← getString X obj "category"
  let condition ← getString X obj "condition"
  let shipping ← getString X obj "shipping"
  let format ← getString X obj "format"
  let location ← getString X obj "location"
  let keywords ← getString X obj "keywords"
  return { id, title, author, description, price, category, condition, shipping, format,
           location, keywords }

/-- `JSONBase::initDocument`: `none` for an empty string and for a parse error. -/
def initDocument (s : Bytes) : Option (Value X.Num) :=
  if s = [] then none else X.parse (cstr s)

/-- `JSONBase::deserialize` of a document: `none` when it returns false and leaves
the document as it was. -/
def deserialize (s : Bytes) : Except Fault (Option (Document X.Num)) :=
  match initDocument X s with
  | none => .ok none
  | some obj => some <$> ofValue X obj

/-- `Documents::deserialize` into an empty list. -/
def deserializeAll (s : Bytes) : Except Fault (List (Document X.Num)) :=
  match initDocument X s with
  | none => .ok []
  | some (.arr items) => items.mapM (ofValue X)
  | some obj => do
      let p ← ofValue X obj
      return [p]

/-- What a document is after it was written and read back. -/
def stored (d : Document X.Num) : Document X.Num :=
  { id := d.id, title := cstr d.title, author := cstr d.author,
    description := cstr d.description, price := X.reread d.price,
    category := cstr d.category, condition := cstr d.condition,
    shipping := cstr d.shipping, format := cstr d.format,
    location := cstr d.location, keywords := cstr d.keywords }

variable {X}

/-! ## What reading can end in -/

theorem orAssert_error {α : Type} {a : Option α} {f : Fault} (failed : orAssert a = .error f) :
    f = .json := by
  cases a with
  | none => cases failed; rfl
  | some a => cases failed

theorem ofValue_error {obj : Value X.Num} {f : Fault} (failed : ofValue X obj = .error f) :
    f = .json := by
  simp only [ofValue, bind_eq_error] at failed
  rcases failed with h | ⟨_, -, h | ⟨_, -, h | ⟨_, -, h | ⟨_, -, h | ⟨_, -, h | ⟨_, -, h |
    ⟨_, -, h | ⟨_, -, h | ⟨_, -, h | ⟨_, -, h | ⟨_, -, h⟩⟩⟩⟩⟩⟩⟩⟩⟩⟩⟩
  all_goals first
    | exact orAssert_error h
    | cases h

/-- Reading an entry ends the process only in a rapidjson assertion. -/
theorem deserialize_error {s : Bytes} {f : Fault} (failed : deserialize X s = .error f) :
    f = .json := by
  unfold deserialize at failed
  split at failed
  · cases failed
  · rename_i obj read
    cases value : ofValue X obj with
    | ok d => rw [value] at failed; cases failed
    | error g =>
        rw [value] at failed
        cases failed
        exact ofValue_error value

/-! ## There and back -/

theorem serialize_eq (d : Document X.Num) : serialize X d = X.write (.obj (members X d)) :=
  cstr_eq_self.mpr (X.zero_notMem_write _)

/-- The object the reader finds in the text of a document. -/
def reread (d : Document X.Num) : Value X.Num :=
  .obj ((members X d).map fun m => (m.1, m.2.mapNum X.reread))

theorem initDocument_serialize (d : Document X.Num) :
    initDocument X (serialize X d) = some (reread d) := by
  have scalars : ∀ m ∈ members X d, m.2.Scalar := by
    have id := @Value.scalar_int32 X.Num d.id
    simpa [members, Value.Scalar] using id
  rw [initDocument, if_neg (by rw [serialize_eq]; exact X.write_ne_nil _), serialize, cstr_cstr]
  rw [show cstr (X.write (.obj (members X d))) = _ from serialize_eq d, X.parse_write _ scalars]
  rfl

theorem ofValue_reread (d : Document X.Num) : ofValue X (reread d) = .ok (stored X d) := by
  -- each name finds its own member
  have id : getInt X (reread d) "id" = .ok d.id :=
    congrArg orAssert (@Value.asInt32_toInt X.Num d.id)
  have title : getString X (reread d) "title" = .ok (cstr (cstr d.title)) := rfl
  have author : getString X (reread d) "author" = .ok (cstr (cstr d.author)) := rfl
  have description : getString X (reread d) "description" = .ok (cstr (cstr d.description)) := rfl
  have price : getDouble X (reread d) "price" = .ok (X.reread d.price) := rfl
  have category : getString X (reread d) "category" = .ok (cstr (cstr d.category)) := rfl
  have condition : getString X (reread d) "condition" = .ok (cstr (cstr d.condition)) := rfl
  have shipping : getString X (reread d) "shipping" = .ok (cstr (cstr d.shipping)) := rfl
  have format : getString X (reread d) "format" = .ok (cstr (cstr d.format)) := rfl
  have location : getString X (reread d) "location" = .ok (cstr (cstr d.location)) := rfl
  have keywords : getString X (reread d) "keywords" = .ok (cstr (cstr d.keywords)) := rfl
  simp only [ofValue, id, title, author, description, price, category, condition, shipping,
    format, location, keywords, cstr_cstr]
  rfl

/-- **What a document becomes on the way through its text.** -/
theorem deserialize_serialize (d : Document X.Num) :
    deserialize X (serialize X d) = .ok (some (stored X d)) := by
  simp only [deserialize, initDocument_serialize, ofValue_reread]
  rfl

end Document

end Piac
