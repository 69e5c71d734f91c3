import PageLint.Json.Token
/-!
# Reading JSON

Tokens are taken in one after the other. What is open around the next token is
kept on a stack, so reading needs no more than a pass over the tokens.
-/

namespace PageLint.Json

/-- What is open around a value. Items and members are kept the last one first. -/
inductive Frame where
  | array (items : List Json)
  | object (members : List (Option String × Json)) (key : Option String)

/-- What may come next. -/
inductive Expected where
  | value
  /-- A value, or the end of an array that is empty so far. -/
  | firstItem
  | key (members : List (Option String × Json))
  /-- A key, or the end of an object that is empty so far. -/
  | firstKey
  | colon (members : List (Option String × Json)) (key : Option String)
  /-- What comes after a value that is complete. -/
  | after (value : Json)

/-- A text that was read up to some token. -/
structure Reading where
  expected : Expected
  stack : List Frame

/-- The value that a token is by itself. -/
def Token.value? : Token → Option Json
  | .null => some .null
  | .bool b => some (.bool b)
  | .natural n => some (.natural n)
  | .number literal => some (.number literal)
  | .string text => some (.string text)
  | _ => none

namespace Reading

/-- Takes in a token where a value may start. -/
def startValue (stack : List Frame) : Token → Option Reading
  | .openArray => some ⟨.firstItem, .array [] :: stack⟩
  | .openObject => some ⟨.firstKey, stack⟩
  | t => t.value?.map fun v => ⟨.after v, stack⟩

/-- Takes in a token after a value. -/
def afterValue (v : Json) : List Frame → Token → Option Reading
  | .array items :: stack, .comma => some ⟨.value, .array (v :: items) :: stack⟩
  | .array items :: stack, .closeArray => some ⟨.after (.array (v :: items).reverse), stack⟩
  | .object members key :: stack, .comma => some ⟨.key ((key, v) :: members), stack⟩
  | .object members key :: stack, .closeObject =>
    some ⟨.after (.object ((key, v) :: members).reverse), stack⟩
  | _, _ => none

def step (r : Reading) (t : Token) : Option Reading :=
  match r.expected, t, r.stack with
  | .value, t, stack => startValue stack t
  | .firstItem, .closeArray, .array _ :: stack => some ⟨.after (.array []), stack⟩
  | .firstItem, t, stack => startValue stack t
  | .firstKey, .closeObject, stack => some ⟨.after (.object []), stack⟩
  | .firstKey, .string key, stack => some ⟨.colon [] key, stack⟩
  | .firstKey, _, _ => none
  | .key members, .string key, stack => some ⟨.colon members key, stack⟩
  | .key _, _, _ => none
  | .colon members key, .colon, stack => some ⟨.value, .object members key :: stack⟩
  | .colon _ _, _, _ => none
  | .after v, t, stack => afterValue v stack t

/-- The value that was read, if the text is complete. -/
def result? (r : Reading) : Option Json :=
  match r.expected, r.stack with
  | .after v, [] => some v
  | _, _ => none

end Reading

/-- The value that a text writes. -/
def parse? (text : String) : Option Json := do
  let tokens ← tokens? text.toList
  let r ← tokens.foldlM Reading.step ⟨.value, []⟩
  r.result?

end PageLint.Json
