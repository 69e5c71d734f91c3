import PageLint.Toml.Value
/-!
# TOML documents

A document is read line by line into the keys before its first header and the
sections below its headers, which are then put together to one table.
-/

namespace PageLint.Toml

/-- The line above a section. -/
inductive Header where
  | table (path : List String)
  /-- A header in double brackets. -/
  | element (path : List String)

inductive Line where
  | pair (key : List String) (value : Toml)
  | header (header : Header)

/-- Reads a line that is neither blank nor a comment, up to its end. -/
def readLine : Reader Line
  | '[' :: '[' :: cs => do
    let (path, rest) ← readKey nestingLimit cs
    match rest with
    | ']' :: ']' :: rest => pure (.header (.element path), ← skipLineEnd? rest)
    | _ => none
  | '[' :: cs => do
    let (path, rest) ← readKey nestingLimit cs
    match rest with
    | ']' :: rest => pure (.header (.table path), ← skipLineEnd? rest)
    | _ => none
  | cs => do
    let ((key, v), rest) ← readPair (readValue nestingLimit) cs
    pure (.pair key v, ← skipLineEnd? rest)

/-- The lines of a text, up to a number of them. -/
def linesUpTo : Nat → List Char → Option (List Line)
  | limit, cs =>
    match skipGap false cs, limit with
    | [], _ => some []
    | _ :: _, 0 => none
    | cs, limit + 1 => do
      let (line, rest) ← readLine cs
      let lines ← linesUpTo limit rest
      pure (line :: lines)

/-- The keys of a section with their values. -/
abbrev Keys := List (List String × Toml)

/-- The keys before the first header, and each header with the keys below it. -/
def sections : List Line → Keys × List (Header × Keys)
  | [] => ([], [])
  | .pair key v :: lines =>
    let (keys, below) := sections lines
    ((key, v) :: keys, below)
  | .header header :: lines =>
    let (keys, below) := sections lines
    ([], (header, keys) :: below)

/-- Adds a section to the tables above it. -/
def addSection (entries : Drafts) : Header × Keys → Option Drafts
  | (.table path, keys) => entries.addTable path keys
  | (.element path, keys) => entries.addElement path keys

/-- A text without the mark of the byte order at its start. -/
def skipByteOrderMark : List Char → List Char
  | '\ufeff' :: rest => rest
  | cs => cs

/-- The table that a document writes. No text has more lines than characters. -/
def parse? (text : String) : Option Toml := do
  let cs := skipByteOrderMark text.toList
  let (keys, below) := sections (← linesUpTo cs.length cs)
  let entries ← below.foldlM addSection (← Drafts.ofKeys keys)
  pure (.table (finishEntries entries))

end PageLint.Toml
