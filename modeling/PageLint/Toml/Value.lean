import PageLint.Toml.Draft
/-!
# Reading TOML values

An array may go over several lines and end in a comma. An inline table stands on
one line, and its keys are put together like those of any table.
-/

namespace PageLint.Toml

/-- Reads the items of an array after its opening bracket or a comma, at most some
number of them. -/
def readItems (readItem : Reader Toml) : Nat → Reader (List Toml)
  | limit, cs =>
    match skipGap false cs, limit with
    | ']' :: rest, _ => some ([], rest)
    | _, 0 => none
    | cs, limit + 1 => do
      let (item, rest) ← readItem cs
      match skipGap false rest with
      | ',' :: rest =>
        let (items, rest) ← readItems readItem limit rest
        pure (item :: items, rest)
      | ']' :: rest => pure ([item], rest)
      | _ => none

/-- Reads a key and its value. -/
def readPair (readValue : Reader Toml) (cs : List Char) :
    Option ((List String × Toml) × List Char) := do
  let (key, rest) ← readKey nestingLimit cs
  match rest with
  | '=' :: rest =>
    let (v, rest) ← readValue (skipBlanks rest)
    pure ((key, v), rest)
  | _ => none

/-- Reads the keys of an inline table that has some, at most some number of them. -/
def readPairs (readValue : Reader Toml) : Nat → Reader (List (List String × Toml))
  | 0, _ => none
  | limit + 1, cs => do
    let (pair, rest) ← readPair readValue cs
    match skipBlanks rest with
    | ',' :: rest =>
      let (pairs, rest) ← readPairs readValue limit rest
      pure (pair :: pairs, rest)
    | '}' :: rest => pure ([pair], rest)
    | _ => none

/-- Reads a value in which arrays and inline tables are nested no deeper than a
limit. No text has more items or keys than characters. -/
def readValue : Nat → Reader Toml
  | depth, cs =>
    match cs, depth with
    | '[' :: _, 0 => none
    | '[' :: rest, depth + 1 => do
      let (items, rest) ← readItems (readValue depth) rest.length rest
      pure (.array items, rest)
    | '{' :: _, 0 => none
    | '{' :: rest, depth + 1 =>
      match skipBlanks rest with
      | '}' :: rest => some (.table [], rest)
      | rest => do
        let (pairs, rest) ← readPairs (readValue depth) rest.length rest
        let entries ← Drafts.ofKeys pairs
        pure (.table (finishEntries entries), rest)
    | cs, _ =>
      match readString cs with
      | some (text, rest) => some (.string text, rest)
      | none => readWord cs

end PageLint.Toml
