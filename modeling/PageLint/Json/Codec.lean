import PageLint.Json.Parser
import PageLint.Json.Writer
/-!
# Values as JSON

How values of a type are written as JSON, and which JSON is read as one. A record
is an object with its fields, in any order and among others; a field must not
come twice, and one that may be empty may be missing. A record is also read from
the array of all its fields. One of a set of names is also read from an object
with that name and null.
-/

namespace PageLint

/-- Values of a type as JSON. -/
class JsonCodec (α : Type) where
  encode : α → Json
  decode : Json → Option α

namespace Json

export JsonCodec (encode decode)

/-- The fields of a record, each with its value if it is there. -/
def fields? (names : List String) : Json → Option (List (Option Json))
  | .array items => if items.length = names.length then some (items.map some) else none
  | .object members =>
    if members.all (·.1.isSome) then
      names.mapM fun name =>
        match members.filter (·.1 = some name) with
        | [] => some none
        | [(_, value)] => some (some value)
        | _ => none
    else none
  | _ => none

/-- The value of a field that has to be there. -/
def needed {α : Type} [JsonCodec α] (field : Option Json) : Option α :=
  field.bind decode

/-- The value of a field that may be missing or null. -/
def omissible {α : Type} [JsonCodec α] : Option Json → Option (Option α)
  | none => some none
  | some .null => some none
  | some value => (decode value).map some

def text? : Json → Option String
  | .string text => text
  | _ => none

/-- One of a set of names, alone or as the one member of an object, with null. -/
def variant? : Json → Option String
  | .string text => text
  | .object [(key, .null)] => key
  | _ => none

/-- A number of 32 bits. -/
def word? : Json → Option UInt32
  | .natural n => if n < UInt32.size then some (UInt32.ofNat n) else none
  | _ => none

def items? {α : Type} [JsonCodec α] : Json → Option (List α)
  | .array items => items.mapM decode
  | _ => none

/-- What a value is written as, if it is there; null if it is not. -/
def ofOption {α : Type} [JsonCodec α] : Option α → Json
  | some a => encode a
  | none => .null

/-- What the value that a text writes stands for. -/
def read? {α : Type} [JsonCodec α] (text : String) : Option α := (parse? text).bind decode

end Json

instance : JsonCodec String := ⟨Json.text, Json.text?⟩

instance : JsonCodec UInt32 := ⟨fun n => .natural n.toNat, Json.word?⟩

instance {α : Type} [JsonCodec α] : JsonCodec (List α) :=
  ⟨fun as => .array (as.map Json.encode), Json.items?⟩

end PageLint
