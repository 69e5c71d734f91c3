import PageLint.Json.Basic
/-!
# Writing JSON

Values are written on one line without spaces, or over several lines with two
spaces for each level. Strings escape quotes, backslashes and control characters
and nothing else.
-/

namespace PageLint.Json

/-- A character inside a string. -/
def writeChar (c : Char) : List Char :=
  if c = '"' then ['\\', '"']
  else if c = '\\' then ['\\', '\\']
  else if c = '\x08' then ['\\', 'b']
  else if c = '\t' then ['\\', 't']
  else if c = '\n' then ['\\', 'n']
  else if c = '\x0c' then ['\\', 'f']
  else if c = '\r' then ['\\', 'r']
  else if c.toNat < 0x20 then
    ['\\', 'u', '0', '0', Nat.digitChar (c.toNat / 16), Nat.digitChar (c.toNat % 16)]
  else [c]

/-- A string; one without text is written as half of a surrogate pair. -/
def writeString (text : Option String) : List Char :=
  match text with
  | some text => '"' :: (text.toList.flatMap writeChar ++ ['"'])
  | none => ['"', '\\', 'u', 'd', '8', '0', '0', '"']

mutual

/-- The characters of a value, all on one line. -/
def write : Json → List Char
  | .null => ['n', 'u', 'l', 'l']
  | .bool true => ['t', 'r', 'u', 'e']
  | .bool false => ['f', 'a', 'l', 's', 'e']
  | .natural n => Nat.toDigits 10 n
  | .number literal => literal.toList
  | .string text => writeString text
  | .array items => '[' :: (writeItems items ++ [']'])
  | .object members => '{' :: (writeMembers members ++ ['}'])

/-- The items of an array, a comma apart. -/
def writeItems : List Json → List Char
  | [] => []
  | [item] => write item
  | item :: items => write item ++ ',' :: writeItems items

/-- The members of an object, a comma apart. -/
def writeMembers : List (Option String × Json) → List Char
  | [] => []
  | [(key, value)] => writeString key ++ ':' :: write value
  | (key, value) :: members =>
    writeString key ++ ':' :: (write value ++ ',' :: writeMembers members)

end

/-- A value on one line. -/
def compact (value : Json) : String := String.ofList (write value)

/-- The start of a line at a level. -/
def newLine (level : Nat) : List Char := '\n' :: List.replicate (2 * level) ' '

mutual

/-- A value over several lines, at a level. -/
def writeLines (level : Nat) : Json → List Char
  | .array [] => ['[', ']']
  | .array items => '[' :: (writeItemLines (level + 1) items ++ newLine level ++ [']'])
  | .object [] => ['{', '}']
  | .object members => '{' :: (writeMemberLines (level + 1) members ++ newLine level ++ ['}'])
  | .null => write .null
  | .bool b => write (.bool b)
  | .natural n => write (.natural n)
  | .number literal => write (.number literal)
  | .string text => write (.string text)

/-- The items of an array, each on lines of its own. -/
def writeItemLines (level : Nat) : List Json → List Char
  | [] => []
  | [item] => newLine level ++ writeLines level item
  | item :: items => newLine level ++ writeLines level item ++ ',' :: writeItemLines level items

/-- The members of an object, each on lines of its own. -/
def writeMemberLines (level : Nat) : List (Option String × Json) → List Char
  | [] => []
  | [(key, value)] => newLine level ++ writeString key ++ ':' :: ' ' :: writeLines level value
  | (key, value) :: members =>
    newLine level ++ writeString key ++ ':' :: ' ' ::
      (writeLines level value ++ ',' :: writeMemberLines level members)

end

/-- A value over several lines. -/
def pretty (value : Json) : String := String.ofList (writeLines 0 value)

end PageLint.Json
