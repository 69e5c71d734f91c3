import PageLint.Json.Basic
/-!
# Tokens of JSON

JSON text is cut into punctuation, literals, numbers and strings; white space
stands between them.
-/

namespace PageLint.Json

/-- A part of a JSON text. -/
inductive Token where
  | openArray
  | closeArray
  | openObject
  | closeObject
  | comma
  | colon
  | null
  | bool (b : Bool)
  | natural (n : Nat)
  | number (literal : String)
  | string (text : Option String)
deriving DecidableEq

/-- The characters between tokens. -/
def isSpace (c : Char) : Bool :=
  c = ' ' || c = '\t' || c = '\n' || c = '\r'

/-! ## Strings -/

/-- The value of a hexadecimal digit. -/
def hexValue? (c : Char) : Option Nat :=
  if '0' ≤ c && c ≤ '9' then some (c.toNat - '0'.toNat)
  else if 'a' ≤ c && c ≤ 'f' then some (c.toNat - 'a'.toNat + 10)
  else if 'A' ≤ c && c ≤ 'F' then some (c.toNat - 'A'.toNat + 10)
  else none

/-- The number that four hexadecimal digits write. -/
def hexNumber? (a b c d : Char) : Option Nat := do
  let a ← hexValue? a
  let b ← hexValue? b
  let c ← hexValue? c
  let d ← hexValue? d
  pure (((a * 16 + b) * 16 + c) * 16 + d)

/-- Whether a number is the first half of a surrogate pair. -/
def isHighSurrogate (n : Nat) : Bool := 0xD800 ≤ n && n ≤ 0xDBFF

/-- Whether a number is the second half of a surrogate pair. -/
def isLowSurrogate (n : Nat) : Bool := 0xDC00 ≤ n && n ≤ 0xDFFF

/-- The character of a surrogate pair. -/
def pairedChar (high low : Nat) : Char :=
  Char.ofNat (0x10000 + (high - 0xD800) * 0x400 + (low - 0xDC00))

/-- The character that a backslash and one letter stand for. -/
def escapedChar? : Char → Option Char
  | '"' => some '"'
  | '\\' => some '\\'
  | '/' => some '/'
  | 'b' => some '\x08'
  | 'f' => some '\x0c'
  | 'n' => some '\n'
  | 'r' => some '\r'
  | 't' => some '\t'
  | _ => none

/-- The text of a string up to some character, the last character first. -/
inductive Spelled where
  | text (cs : List Char)
  /-- The first half of a surrogate pair comes next. -/
  | half (high : Nat) (cs : List Char)
  /-- Half of a surrogate pair stands alone, so there is no text. -/
  | broken

namespace Spelled

/-- The text with one more character. -/
def push (c : Char) : Spelled → Spelled
  | .text cs => .text (c :: cs)
  | _ => .broken

/-- The text with one more escaped number. -/
def pushNumber (n : Nat) : Spelled → Spelled
  | .text cs =>
    if isHighSurrogate n then .half n cs
    else if isLowSurrogate n then .broken
    else .text (Char.ofNat n :: cs)
  | .half high cs => if isLowSurrogate n then .text (pairedChar high n :: cs) else .broken
  | .broken => .broken

def text? : Spelled → Option String
  | .text cs => some (String.ofList cs.reverse)
  | _ => none

end Spelled

/-- Reads a string after its opening quote, given what was read of it. -/
def readString (read : Spelled) : List Char → Option (Option String × List Char)
  | [] => none
  | '"' :: rest => some (read.text?, rest)
  | '\\' :: 'u' :: a :: b :: c :: d :: rest =>
    match hexNumber? a b c d with
    | some n => readString (read.pushNumber n) rest
    | none => none
  | '\\' :: c :: rest =>
    match escapedChar? c with
    | some c => readString (read.push c) rest
    | none => none
  | c :: rest => if c.toNat < 0x20 then none else readString (read.push c) rest

/-! ## Numbers -/

/-- The number that some decimal digits write. -/
def decimal (digits : List Char) : Nat :=
  digits.foldl (fun n c => 10 * n + (c.toNat - '0'.toNat)) 0

/-- Reads a fraction, if there is one. -/
def readFraction : List Char → Option (List Char × List Char)
  | '.' :: rest =>
    let digits := rest.takeWhile Char.isDigit
    if digits = [] then none else some ('.' :: digits, rest.dropWhile Char.isDigit)
  | rest => some ([], rest)

/-- Reads the digits of an exponent, after `mark`. -/
def readExponentDigits (mark rest : List Char) : Option (List Char × List Char) :=
  let digits := rest.takeWhile Char.isDigit
  if digits = [] then none else some (mark ++ digits, rest.dropWhile Char.isDigit)

/-- Reads an exponent, if there is one. -/
def readExponent : List Char → Option (List Char × List Char)
  | c :: rest =>
    if c = 'e' || c = 'E' then
      match rest with
      | '+' :: after => readExponentDigits [c, '+'] after
      | '-' :: after => readExponentDigits [c, '-'] after
      | _ => readExponentDigits [c] rest
    else some ([], c :: rest)
  | [] => some ([], [])

/-- Reads a number after its sign. Its first digit is zero only if it has no other
before the fraction. -/
def readNumber (sign cs : List Char) : Option (Token × List Char) := do
  let digits := cs.takeWhile Char.isDigit
  if digits = [] || (digits.head? = some '0' && digits.length ≠ 1) then none
  let (fraction, rest) ← readFraction (cs.dropWhile Char.isDigit)
  let (exponent, rest) ← readExponent rest
  if sign = [] && fraction = [] && exponent = [] then some (.natural (decimal digits), rest)
  else some (.number (String.ofList (sign ++ digits ++ fraction ++ exponent)), rest)

/-! ## Texts -/

/-- Reads the token at the start of a text. -/
def readToken : List Char → Option (Token × List Char)
  | '[' :: rest => some (.openArray, rest)
  | ']' :: rest => some (.closeArray, rest)
  | '{' :: rest => some (.openObject, rest)
  | '}' :: rest => some (.closeObject, rest)
  | ',' :: rest => some (.comma, rest)
  | ':' :: rest => some (.colon, rest)
  | '"' :: rest => (readString (.text []) rest).map fun (text, rest) => (.string text, rest)
  | 'n' :: 'u' :: 'l' :: 'l' :: rest => some (.null, rest)
  | 't' :: 'r' :: 'u' :: 'e' :: rest => some (.bool true, rest)
  | 'f' :: 'a' :: 'l' :: 's' :: 'e' :: rest => some (.bool false, rest)
  | '-' :: rest => readNumber ['-'] rest
  | cs => readNumber [] cs

/-- The tokens of a text, up to a number of them. -/
def tokensUpTo : Nat → List Char → Option (List Token)
  | limit, cs =>
    match cs.dropWhile isSpace, limit with
    | [], _ => some []
    | _ :: _, 0 => none
    | c :: rest, limit + 1 => do
      let (token, rest) ← readToken (c :: rest)
      let tokens ← tokensUpTo limit rest
      pure (token :: tokens)

/-- The tokens of a text. No text has more tokens than characters. -/
def tokens? (cs : List Char) : Option (List Token) := tokensUpTo cs.length cs

end PageLint.Json
