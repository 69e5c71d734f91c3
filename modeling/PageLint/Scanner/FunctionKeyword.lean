import PageLint.Scanner.Basic
import PageLint.Text.Alphanumeric
import PageLint.Text.Blank
/-!
# Functions of a script

Every `function` that stands alone as a word declares a function, named by the
identifier after it and reaching through the next closing brace. A function
without a name is found as well, under the empty name.

The ends of all functions are found in one pass from the end of the text;
`sitesAndStop_snd` says where they are.
-/

namespace PageLint.FunctionKeyword

/-- The characters of identifiers. -/
def isIdentifierChar (c : Char) : Bool :=
  Text.isAlphanumeric c || c = '_' || c = '$'

/-- The word that opens a function. -/
def keyword : List Char := "function".toList

/-- A function: its name, and the bytes from its keyword through its end. -/
structure Site where
  name : String
  span : Markup.Span
deriving DecidableEq

/-- Whether the keyword stands alone at the start of a text, after `before`. -/
def isSite (before : Option Char) (cs : List Char) : Bool :=
  keyword.isPrefixOf cs && !before.any isIdentifierChar &&
    !(cs.drop keyword.length).head?.any isIdentifierChar

/-- The name of the function whose keyword starts a text. -/
def nameAt (cs : List Char) : String :=
  String.ofList
    (((cs.drop keyword.length).dropWhile Text.isBlankChar).takeWhile isIdentifierChar)

/-- The functions in the rest of a text, which starts at a byte offset and comes after
`before`, and the byte offset where a function ends that was open before. -/
def sitesAndStop (before : Option Char) (offset : Nat) : List Char → List Site × Nat
  | [] => ([], offset)
  | c :: cs =>
    let inner := sitesAndStop (some c) (offset + c.utf8Size) cs
    let stop := if c = '}' then offset + 1 else inner.2
    let here := if isSite before (c :: cs) then [⟨nameAt (c :: cs), offset, stop⟩] else []
    (here ++ inner.1, stop)

/-- The functions of a script. -/
def sites (cs : List Char) : List Site := (sitesAndStop none 0 cs).1

theorem sitesAndStop_snd (before : Option Char) (offset : Nat) (cs : List Char) :
    (sitesAndStop before offset cs).2 =
      offset + Text.byteLength (cs.takeWhile (· ≠ '}')) + (if '}' ∈ cs then 1 else 0) := by
  induction cs generalizing before offset with
  | nil => rfl
  | cons c cs ih =>
    change (if c = '}' then offset + 1 else (sitesAndStop (some c) (offset + c.utf8Size) cs).2) = _
    by_cases hc : c = '}'
    · subst hc
      simp
    · have hmem : '}' ∈ c :: cs ↔ '}' ∈ cs := by simp [Ne.symm hc]
      have htake : (c :: cs).takeWhile (· ≠ '}') = c :: cs.takeWhile (· ≠ '}') :=
        List.takeWhile_cons_of_pos (by simpa using hc)
      simp only [if_neg hc, ih, hmem, htake, Text.byteLength_cons, Nat.add_assoc]

def Site.feature (locator : Markup.Locator) (site : Site) : Except Fault ScannedFeature := do
  let range ← locator.range site.span
  pure (.function ⟨site.name, none, none, [], none, none⟩ range [])

def scanner : Scanner where
  name := "js-function"
  language := .javaScript
  parse := Scanner.parseNothing
  scan document := do
    let locator : Markup.Locator :=
      ⟨SourceFile.ofContent document.url document.contents, document.offset⟩
    let features ← (sites document.contents.toList).mapM (Site.feature locator)
    pure ⟨features, []⟩

end PageLint.FunctionKeyword
