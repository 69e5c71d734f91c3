import PageLint.Toml.Text
/-!
# Numbers, dates and truth values of TOML

These are written in letters, digits and a few marks, so such a word is taken as a
whole and told apart by its form.
-/

namespace PageLint.Toml

/-! ## Digits -/

/-- The digits of a number, without the underscores that may stand between two of
them. -/
def ungrouped? (isDigit : Char → Bool) (cs : List Char) : Option (List Char) :=
  let groups := cs.splitOn '_'
  if groups.all (fun group => group ≠ [] && group.all isDigit) then some groups.flatten
  else none

/-- The digits of a decimal number that starts with zero only if it is zero. -/
def decimalDigits? (cs : List Char) : Option (List Char) := do
  let digits ← ungrouped? Char.isDigit cs
  if digits.head? = some '0' && digits.length ≠ 1 then none else some digits

/-- Whether a number is negative, and the number without its sign. -/
def unsigned : List Char → Bool × List Char
  | '-' :: rest => (true, rest)
  | '+' :: rest => (false, rest)
  | cs => (false, cs)

/-! ## Integers -/

/-- The number of integers of 64 bits that are not negative. -/
def integerBound : Nat := 0x8000000000000000

/-- The integer that is written to a base other than ten. -/
def basedInteger? (base : Nat) (cs : List Char) : Option Toml := do
  let digits ← ungrouped? (fun c => (number? base [c]).isSome) cs
  let n ← number? base digits
  if n < integerBound then some (.integer n) else none

/-- The integer of a word. -/
def integer? : List Char → Option Toml
  | '0' :: 'x' :: rest => basedInteger? 16 rest
  | '0' :: 'o' :: rest => basedInteger? 8 rest
  | '0' :: 'b' :: rest => basedInteger? 2 rest
  | cs => do
    let (negative, cs) := unsigned cs
    let n ← number? 10 (← decimalDigits? cs)
    if negative then
      if n ≤ integerBound then some (.integer (-(n : Int))) else none
    else if n < integerBound then some (.integer n) else none

/-! ## Floats -/

/-- The least number that is too large for a float of 64 bits: half a step above
the largest. -/
def floatBound : Nat := Nat.pow 2 1024 - Nat.pow 2 970

/-- Whether digits with an exponent of ten are too large for a float. The number of
places before the point decides, and only at the edge the number itself. -/
def isTooLarge (digits : List Char) (exponent : Int) : Bool :=
  let digits := digits.dropWhile (· = '0')
  let places := (digits.length : Int) + exponent
  if digits = [] || places ≤ 308 then false
  else if 310 ≤ places then true
  else
    let n := (number? 10 digits).getD 0
    floatBound * Nat.pow 10 (-exponent).toNat ≤ n * Nat.pow 10 exponent.toNat

/-- The exponent of ten that ends a float, if it is well formed. -/
def exponent? : List Char → Option Int
  | [] => some 0
  | c :: rest => do
    if c ≠ 'e' && c ≠ 'E' then none
    let (negative, cs) := unsigned rest
    let n ← number? 10 (← ungrouped? Char.isDigit cs)
    pure (if negative then -(n : Int) else n)

/-- The characters of a number before its point or exponent. -/
def isGroupChar (c : Char) : Bool := c.isDigit || c = '_'

/-- The digits after the point of a float, and what follows them. -/
def fraction? : List Char → Option (List Char × List Char)
  | '.' :: rest => do
    let digits ← ungrouped? Char.isDigit (rest.takeWhile isGroupChar)
    pure (digits, rest.dropWhile isGroupChar)
  | rest => some ([], rest)

/-- Whether a word without sign is a float. -/
def isFloat (negative : Bool) (cs : List Char) : Bool :=
  let parts? : Option (List Char × Int) := do
    let whole ← decimalDigits? (cs.takeWhile isGroupChar)
    let (fraction, rest) ← fraction? (cs.dropWhile isGroupChar)
    if fraction = [] && rest = [] then none
    let exponent ← exponent? rest
    pure (whole ++ fraction, exponent - fraction.length)
  match parts? with
  | some (digits, exponent) => negative || !isTooLarge digits exponent
  | none => cs = ['i', 'n', 'f'] || cs = ['n', 'a', 'n']

def float? (cs : List Char) : Option Toml :=
  let (negative, number) := unsigned cs
  if isFloat negative number then some (.float (String.ofList cs)) else none

/-! ## Dates and times -/

/-- The number that some digits write, if it is in a range. -/
def numberWithin? (low high : Nat) (digits : List Char) : Option Nat := do
  let n ← number? 10 digits
  if low ≤ n && n ≤ high then some n else none

/-- The number of days of a month. -/
def daysOfMonth (year month : Nat) : Nat :=
  if month = 2 then
    if year % 4 = 0 && (year % 100 ≠ 0 || year % 400 = 0) then 29 else 28
  else if month = 4 || month = 6 || month = 9 || month = 11 then 30
  else 31

def isDate : List Char → Bool
  | [y, y', y'', y''', '-', m, m', '-', d, d'] =>
    Option.isSome do
      let year ← number? 10 [y, y', y'', y''']
      let month ← numberWithin? 1 12 [m, m']
      numberWithin? 1 (daysOfMonth year month) [d, d']
  | _ => false

/-- What follows the hours and minutes at the start of a word. -/
def skipMinutes? : List Char → Option (List Char)
  | h :: h' :: ':' :: m :: m' :: rest => do
    let _ ← numberWithin? 0 23 [h, h']
    let _ ← numberWithin? 0 59 [m, m']
    pure rest
  | _ => none

/-- What follows the fraction of a second at the start of a word, if there is one. -/
def skipFraction? : List Char → Option (List Char)
  | '.' :: rest => if rest.head?.any Char.isDigit then some (rest.dropWhile Char.isDigit) else none
  | rest => some rest

/-- What follows the time at the start of a word. -/
def skipTime? (cs : List Char) : Option (List Char) := do
  match ← skipMinutes? cs with
  | ':' :: s :: s' :: rest =>
    let _ ← numberWithin? 0 60 [s, s']
    skipFraction? rest
  | _ => none

/-- Whether a word is the distance of a time zone from the universal time. -/
def isZone : List Char → Bool
  | ['Z'] => true
  | ['z'] => true
  | '+' :: rest => skipMinutes? rest = some []
  | '-' :: rest => skipMinutes? rest = some []
  | _ => false

/-- Whether a word is a date, a time, or a date and a time with or without a zone. -/
def isDateTime (cs : List Char) : Bool :=
  skipTime? cs = some [] ||
    (isDate (cs.take 10) &&
      match cs.drop 10 with
      | [] => true
      | mark :: rest =>
        (mark = 'T' || mark = 't' || mark = ' ') &&
          (skipTime? rest).any fun zone => zone = [] || isZone zone)

/-! ## Words -/

/-- The characters of numbers, dates and truth values. -/
def isWordChar (c : Char) : Bool :=
  c.isAlphanum || c = '_' || c = '+' || c = '-' || c = '.' || c = ':'

/-- The value of a word. -/
def word? (cs : List Char) : Option Toml :=
  if cs = ['t', 'r', 'u', 'e'] then some (.boolean true)
  else if cs = ['f', 'a', 'l', 's', 'e'] then some (.boolean false)
  else if isDateTime cs then some (.dateTime (String.ofList cs))
  else match integer? cs with
    | some n => some n
    | none => float? cs

/-- Reads a number, a date or a truth value. A time may stand one space after its
date. -/
def readWord (cs : List Char) : Option (Toml × List Char) :=
  let word := cs.takeWhile isWordChar
  match isDate word, cs.dropWhile isWordChar with
  | true, ' ' :: c :: rest =>
    if c.isDigit then
      let time := (c :: rest).takeWhile isWordChar
      (word? (word ++ ' ' :: time)).map (·, (c :: rest).dropWhile isWordChar)
    else (word? word).map (·, ' ' :: c :: rest)
  | _, rest => (word? word).map (·, rest)

end PageLint.Toml
