import PageLint.Toml.Basic
/-!
# Blanks, strings and keys of TOML

Basic strings stand between double quotes and may hold escapes, literal strings
between single quotes. Either kind may go over several lines between tripled
quotes.
-/

namespace PageLint.Toml

/-! ## Blanks -/

/-- White space within a line. -/
def isBlank (c : Char) : Bool := c = ' ' || c = '\t'

/-- The characters of comments and strings: all but control characters; a tab is
one of them. -/
def isPlain (c : Char) : Bool := c = '\t' || (0x20 ≤ c.toNat && c.toNat ≠ 0x7f)

/-- A text without the blanks at its start. -/
def skipBlanks (cs : List Char) : List Char := cs.dropWhile isBlank

/-- A text without the line break at its start, if there is one. -/
def skipBreak? : List Char → Option (List Char)
  | '\n' :: rest => some rest
  | '\r' :: '\n' :: rest => some rest
  | _ => none

/-- A text without the comment at its start. -/
def skipComment : List Char → List Char
  | '#' :: rest => rest.dropWhile isPlain
  | cs => cs

/-- A text after the end of its first line, if no more than blanks and a comment
are left of that line. -/
def skipLineEnd? (cs : List Char) : Option (List Char) :=
  match skipComment (skipBlanks cs) with
  | [] => some []
  | cs => skipBreak? cs

/-- A text without the blanks, line breaks and comments at its start. `comment`
tells whether it starts within a comment. -/
def skipGap (comment : Bool) : List Char → List Char
  | [] => []
  | '\n' :: rest => skipGap false rest
  | '\r' :: '\n' :: rest => skipGap false rest
  | c :: rest =>
    if comment && isPlain c then skipGap true rest
    else if isBlank c then skipGap false rest
    else if c = '#' then skipGap true rest
    else c :: rest

/-! ## Digits -/

/-- The value of a digit, of the sixteen hexadecimal ones. -/
def digitValue? (c : Char) : Option Nat :=
  if '0' ≤ c && c ≤ '9' then some (c.toNat - '0'.toNat)
  else if 'a' ≤ c && c ≤ 'f' then some (c.toNat - 'a'.toNat + 10)
  else if 'A' ≤ c && c ≤ 'F' then some (c.toNat - 'A'.toNat + 10)
  else none

/-- The number that digits write to a base. -/
def number? (base : Nat) (digits : List Char) : Option Nat :=
  digits.foldlM (fun n c => do
    let d ← digitValue? c
    if d < base then some (n * base + d) else none) 0

/-- The character that hexadecimal digits name. -/
def namedChar? (digits : List Char) : Option Char := do
  let n ← number? 16 digits
  if n.isValidChar then some (Char.ofNat n) else none

/-! ## Strings -/

/-- The character that a backslash and one letter stand for. -/
def escapedChar? : Char → Option Char
  | 'b' => some '\x08'
  | 't' => some '\t'
  | 'n' => some '\n'
  | 'f' => some '\x0c'
  | 'r' => some '\r'
  | '"' => some '"'
  | '\\' => some '\\'
  | _ => none

/-- Reads a basic string after its opening quote. `read` is its text so far, the
last character first. -/
def readBasic (read : List Char) : Reader String
  | [] => none
  | '"' :: rest => some (String.ofList read.reverse, rest)
  | '\\' :: 'u' :: a :: b :: c :: d :: rest => do
    let named ← namedChar? [a, b, c, d]
    readBasic (named :: read) rest
  | '\\' :: 'U' :: a :: b :: c :: d :: e :: f :: g :: h :: rest => do
    let named ← namedChar? [a, b, c, d, e, f, g, h]
    readBasic (named :: read) rest
  | '\\' :: c :: rest => do
    let escaped ← escapedChar? c
    readBasic (escaped :: read) rest
  | c :: rest => if isPlain c then readBasic (c :: read) rest else none

/-- What ends a string of several lines, if it ends here: the quotes that still
belong to it, at most two, and what follows the three that close it. -/
def closing? (quote : Char) (cs : List Char) : Option (List Char × List Char) :=
  let run := (cs.takeWhile (· = quote)).length
  if run < 3 then none
  else
    let own := min (run - 3) 2
    some (List.replicate own quote, cs.drop (own + 3))

/-- Reads a basic string of several lines after its opening quotes. A backslash at
the end of a line joins the text to what comes after all blanks and line breaks;
`joining` tells whether these are being passed over. -/
def readBasicLines (joining : Bool) (read : List Char) : Reader String
  | [] => none
  | '\\' :: 'u' :: a :: b :: c :: d :: rest => do
    let named ← namedChar? [a, b, c, d]
    readBasicLines false (named :: read) rest
  | '\\' :: 'U' :: a :: b :: c :: d :: e :: f :: g :: h :: rest => do
    let named ← namedChar? [a, b, c, d, e, f, g, h]
    readBasicLines false (named :: read) rest
  | '\\' :: c :: rest =>
    if (skipBreak? (skipBlanks (c :: rest))).isSome then readBasicLines true read (c :: rest)
    else do
      let escaped ← escapedChar? c
      readBasicLines false (escaped :: read) rest
  | '\r' :: '\n' :: rest =>
    if joining then readBasicLines true read rest
    else readBasicLines false ('\n' :: read) rest
  | c :: rest =>
    match closing? '"' (c :: rest) with
    | some (own, after) => some (String.ofList (own ++ read).reverse, after)
    | none =>
      if joining && (isBlank c || c = '\n') then readBasicLines true read rest
      else if c = '\n' || isPlain c then readBasicLines false (c :: read) rest
      else none

/-- The quote of literal strings. -/
def singleQuote : Char := '\x27'

/-- Reads a literal string after its opening quote. -/
def readLiteral (cs : List Char) : Option (String × List Char) :=
  let inside (c : Char) : Bool := isPlain c && c ≠ singleQuote
  match cs.dropWhile inside with
  | c :: rest =>
    if c = singleQuote then some (String.ofList (cs.takeWhile inside), rest) else none
  | [] => none

/-- Reads a literal string of several lines after its opening quotes. -/
def readLiteralLines (read : List Char) : Reader String
  | [] => none
  | '\r' :: '\n' :: rest => readLiteralLines ('\n' :: read) rest
  | c :: rest =>
    match closing? singleQuote (c :: rest) with
    | some (own, after) => some (String.ofList (own ++ read).reverse, after)
    | none => if c = '\n' || isPlain c then readLiteralLines (c :: read) rest else none

/-- A text of several lines without the line break after its opening quotes. -/
def skipFirstBreak (cs : List Char) : List Char := (skipBreak? cs).getD cs

def readLineString : Reader String
  | '"' :: rest => readBasic [] rest
  | c :: rest => if c = singleQuote then readLiteral rest else none
  | [] => none

def readString (cs : List Char) : Option (String × List Char) :=
  if ['"', '"', '"'].isPrefixOf cs then readBasicLines false [] (skipFirstBreak (cs.drop 3))
  else if (List.replicate 3 singleQuote).isPrefixOf cs then
    readLiteralLines [] (skipFirstBreak (cs.drop 3))
  else readLineString cs

/-! ## Keys -/

/-- The characters of keys without quotes. -/
def isBareKeyChar (c : Char) : Bool := c.isAlphanum || c = '_' || c = '-'

/-- Reads one part of a key. -/
def readName (cs : List Char) : Option (String × List Char) :=
  match readLineString cs with
  | some read => some read
  | none =>
    let name := cs.takeWhile isBareKeyChar
    if name = [] then none else some (String.ofList name, cs.dropWhile isBareKeyChar)

/-- Reads a key of at most some number of parts, with dots and blanks between them
and blanks around them. -/
def readKey : Nat → Reader (List String)
  | 0, _ => none
  | parts + 1, cs => do
    let (name, rest) ← readName (skipBlanks cs)
    match skipBlanks rest with
    | '.' :: rest =>
      let (names, rest) ← readKey parts rest
      pure (name :: names, rest)
    | rest => pure ([name], rest)

end PageLint.Toml
