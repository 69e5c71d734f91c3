/-!
# TOML values

The values that a TOML document gives to its keys.
-/

namespace PageLint

/-- A TOML value. Floats, dates and times are kept as they are written. -/
inductive Toml where
  | string (text : String)
  | integer (n : Int)
  | float (literal : String)
  | boolean (b : Bool)
  | dateTime (literal : String)
  | array (items : List Toml)
  | table (entries : List (String × Toml))
deriving Inhabited

namespace Toml

/-- Reads something at the start of a text and gives it with the rest. -/
abbrev Reader (α : Type) := List Char → Option (α × List Char)

/-- How deeply arrays, inline tables and the parts of a key may be nested. -/
def nestingLimit : Nat := 79

def text? : Toml → Option String
  | .string text => some text
  | _ => none

def boolean? : Toml → Option Bool
  | .boolean b => some b
  | _ => none

def items? : Toml → Option (List Toml)
  | .array items => some items
  | _ => none

/-- One of a set of names, alone or as the one key of a table, with an empty array
or table. -/
def variant? : Toml → Option String
  | .string text => some text
  | .table [(key, .array [])] => some key
  | .table [(key, .table [])] => some key
  | _ => none

/-- The fields of a record: a table with some of its fields among others, or an
array that starts with its first fields. A date sets no field. -/
def fields? (names : List String) : Toml → Option (List (Option Toml))
  | .table entries => some (names.map fun name => entries.lookup name)
  | .array items => some (names.mapIdx fun k _ => items[k]?)
  | .dateTime _ => some (names.map fun _ => none)
  | _ => none

end Toml

end PageLint
