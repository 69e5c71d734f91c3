/-!
# JSON values

JSON as it is written: members keep their order and may repeat a key, and whole
numbers are kept apart from all others. A string may spell half of a surrogate
pair; it is a string then, but has no text.
-/

namespace PageLint

inductive Json where
  | null
  | bool (b : Bool)
  /-- A number without sign, fraction and exponent. -/
  | natural (n : Nat)
  /-- Any other number, as it is written. -/
  | number (literal : String)
  /-- A string with its text, if it has one. -/
  | string (text : Option String)
  | array (items : List Json)
  | object (members : List (Option String × Json))
deriving Inhabited

namespace Json

/-- The string of a text. -/
def text (s : String) : Json := .string (some s)

def record (members : List (String × Json)) : Json :=
  .object (members.map fun (key, value) => (some key, value))

end Json

end PageLint
