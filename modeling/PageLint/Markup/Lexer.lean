import PageLint.Markup.Cursor
/-!
# Cutting markup into tokens

What a token is shows in its first characters. A token that is never closed runs
to the end of the markup and is reported. The body of a script or style element
is one token of text, up to the next `</` with the name of the element.
-/

namespace PageLint.Markup

/-- What was read at a cursor, and where reading goes on. -/
structure Step where
  tokens : List Token
  problems : List Problem
  next : Cursor

/-! ## Attributes -/

/-- The characters that a name of an attribute goes on through. -/
def isAttributeNameChar (c : Char) : Bool :=
  !Text.isMarkupSpace c && c ≠ '>' && c ≠ '/' && c ≠ '='

/-- The characters that a value without quotes goes on through. -/
def isUnquotedChar (c : Char) : Bool :=
  !Text.isMarkupSpace c && c ≠ '>'

/-- A text in lower case, as names are kept. -/
def lowerName (cs : List Char) : String := String.ofList (cs.map Char.toLower)

/-- A value that was read, whether its quote is open, and where reading goes on. -/
structure ValueStep where
  value : RawValue
  unclosed : Bool
  next : Cursor

/-- The value up to the quote that opens it at the cursor. -/
def quotedValue (quote : Char) (c : Cursor) : ValueStep :=
  let inner := c.skip 1
  let stop := inner.skipWhile (· ≠ quote)
  ⟨⟨String.ofList (inner.run (· ≠ quote)), inner.spanTo stop⟩, stop.rest.isEmpty, stop.skip 1⟩

/-- The value up to white space or the end of the tag. -/
def unquotedValue (c : Cursor) : ValueStep :=
  let stop := c.skipWhile isUnquotedChar
  ⟨⟨String.ofList (c.run isUnquotedChar), c.spanTo stop⟩, false, stop⟩

/-- The value at the cursor. -/
def valueAt (c : Cursor) : ValueStep :=
  match c.rest.head? with
  | some '"' => quotedValue '"' c
  | some '\'' => quotedValue '\'' c
  | _ => unquotedValue c

structure AttributeStep where
  found : RawAttribute
  problems : List Problem
  next : Cursor

/-- Past the name of an attribute; a lone `=` stands for a name. -/
def afterName (c : Cursor) : Cursor :=
  if c.run isAttributeNameChar = [] then c.skip 1 else c.skipWhile isAttributeNameChar

/-- The attribute at the cursor. White space may stand around the `=`; without
one the attribute ends with its name. -/
def attributeAt (c : Cursor) : AttributeStep :=
  let name := lowerName (c.run isAttributeNameChar)
  let after := afterName c
  let nameSpan := c.spanTo after
  let equals := after.skipSpace
  if equals.rest.head? = some '=' then
    let opening := (equals.skip 1).skipSpace
    let v := valueAt opening
    ⟨⟨name, nameSpan, some v.value⟩,
      if v.unclosed then [⟨.attribute name, opening.spanTo v.next⟩] else [], v.next⟩
  else ⟨⟨name, nameSpan, none⟩, [], after⟩

theorem length_rest_valueAt_le (c : Cursor) :
    (valueAt c).next.rest.length ≤ c.rest.length := by
  have quoted (q : Char) : (quotedValue q c).next.rest.length ≤ c.rest.length := by
    have h := (c.skip 1).length_rest_skipWhile_le (· ≠ q)
    simp only [quotedValue, Cursor.length_rest_skip] at h ⊢
    omega
  unfold valueAt
  split
  · exact quoted '"'
  · exact quoted '\''
  · exact c.length_rest_skipWhile_le _

theorem length_rest_afterName_lt (c : Cursor) (h : c.rest ≠ []) :
    (afterName c).rest.length < c.rest.length := by
  unfold afterName
  split
  · have := List.length_pos_iff.mpr h
    rw [Cursor.length_rest_skip]
    omega
  · next hn => exact c.length_rest_skipWhile_lt _ hn

theorem length_rest_attributeAt_lt (c : Cursor) (h : c.rest ≠ []) :
    (attributeAt c).next.rest.length < c.rest.length := by
  have hname := length_rest_afterName_lt c h
  unfold attributeAt
  simp only
  split
  · have hspace := (afterName c).length_rest_skipWhile_le Text.isMarkupSpace
    have hskip := (afterName c).skipSpace.length_rest_skip 1
    have hopen := ((afterName c).skipSpace.skip 1).length_rest_skipWhile_le Text.isMarkupSpace
    have hvalue := length_rest_valueAt_le ((afterName c).skipSpace.skip 1).skipSpace
    simp only [Cursor.skipSpace] at *
    omega
  · exact hname

/-! ## Tags -/

inductive TagEnd where
  | closed
  | selfClosed
  | unclosed
deriving DecidableEq

/-- What a start tag holds after its name. -/
structure TagBody where
  attributes : List RawAttribute
  problems : List Problem
  ending : TagEnd
  next : Cursor

/-- The body of the start tag from the cursor on. A `/` that does not close the
tag is passed over. -/
def tagBody (c : Cursor) : TagBody :=
  let d := c.skipSpace
  match _h : d.rest with
  | [] => ⟨[], [], .unclosed, d⟩
  | '>' :: _ => ⟨[], [], .closed, d.skip 1⟩
  | '/' :: '>' :: _ => ⟨[], [], .selfClosed, d.skip 2⟩
  | '/' :: _ => tagBody (d.skip 1)
  | _ :: _ =>
    let a := attributeAt d
    let body := tagBody a.next
    { body with
      attributes := a.found :: body.attributes
      problems := a.problems ++ body.problems }
termination_by c.rest.length
decreasing_by
  all_goals
    have hspace : d.rest.length ≤ c.rest.length := c.length_rest_skipWhile_le _
    have hd := congrArg List.length _h
    simp only [List.length_cons] at hd
  · have hskip := d.length_rest_skip 1
    simp only [d] at *
    omega
  · have := length_rest_attributeAt_lt d (List.ne_nil_of_length_pos (by omega))
    change (attributeAt d).next.rest.length < c.rest.length
    omega

/-- The characters that the name in a start tag goes on through. -/
def isStartTagNameChar (c : Char) : Bool :=
  !Text.isMarkupSpace c && c ≠ '>' && c ≠ '/'

/-- The characters that the name in an end tag goes on through: a slash is among
them. -/
def isEndTagNameChar (c : Char) : Bool :=
  !Text.isMarkupSpace c && c ≠ '>'

/-- The text of a raw text element from the cursor on, up to its end tag. -/
def rawText (name : String) (c : Cursor) : Step :=
  match Text.suffixIndex? (Text.startsIgnoringCase ('<' :: '/' :: name.toList)) c.rest with
  | some k =>
    let stop := c.skip k
    ⟨[⟨.text (String.ofList (c.rest.take k)), c.spanTo stop⟩], [], stop⟩
  | none =>
    let stop := c.toEnd
    ⟨[⟨.text (String.ofList c.rest), c.spanTo stop⟩], [⟨.rawText name, c.spanTo stop⟩], stop⟩

/-- The start tag at the cursor, and its text if it opens a raw text element. -/
def startTag (c : Cursor) : Step :=
  let inner := c.skip 1
  let name := lowerName (inner.run isStartTagNameChar)
  let body := tagBody (inner.skipWhile isStartTagNameChar)
  let tag : Token :=
    ⟨.startTag name body.attributes (body.ending = .selfClosed), c.spanTo body.next⟩
  let problems :=
    if body.ending = .unclosed then body.problems ++ [⟨.startTag name, c.spanTo body.next⟩]
    else body.problems
  if body.ending ≠ .selfClosed && isRawTextElement name then
    let raw := rawText name body.next
    ⟨tag :: raw.tokens, problems ++ raw.problems, raw.next⟩
  else ⟨[tag], problems, body.next⟩

def endTag (c : Cursor) : Step :=
  let name := lowerName ((c.skip 2).run isEndTagNameChar)
  let stop := c.skipWhile (· ≠ '>')
  let next := stop.skip 1
  ⟨[⟨.endTag name, c.spanTo next⟩],
    if stop.rest.isEmpty then [⟨.endTag name, c.spanTo next⟩] else [], next⟩

/-! ## Everything else -/

def comment (c : Cursor) : Step :=
  let inner := c.skip 4
  match Text.suffixIndex? ['-', '-', '>'].isPrefixOf inner.rest with
  | some k =>
    let stop := inner.skip (k + 3)
    ⟨[⟨.comment, c.spanTo stop⟩], [], stop⟩
  | none =>
    let stop := inner.toEnd
    ⟨[⟨.comment, c.spanTo stop⟩], [⟨.comment, c.spanTo stop⟩], stop⟩

/-- The declaration at the cursor; one that is never closed is not reported. -/
def declaration (c : Cursor) : Step :=
  let stop := (c.skipWhile (· ≠ '>')).skip 1
  ⟨[⟨.declaration, c.spanTo stop⟩], [], stop⟩

/-- The text at the cursor, at least one character of it. -/
def text (c : Cursor) : Step :=
  let inner := c.skip 1
  let stop := inner.skipWhile (· ≠ '<')
  ⟨[⟨.text (String.ofList (c.rest.take 1 ++ inner.run (· ≠ '<'))), c.spanTo stop⟩], [], stop⟩

/-- What the characters ahead open. -/
inductive Opening where
  | comment
  | declaration
  | endTag
  | startTag
  | text
deriving DecidableEq

/-- Behind a `<`, a letter opens a start tag, and a `/` with a letter behind it an end tag. A `!`
or a `?` opens a declaration, but `!--` a comment. All else is text. -/
def Opening.of : List Char → Opening
  | '<' :: '!' :: '-' :: '-' :: _ => .comment
  | '<' :: '!' :: _ => .declaration
  | '<' :: '?' :: _ => .declaration
  | '<' :: '/' :: c :: _ => if c.isAlpha then .endTag else .text
  | '<' :: c :: _ => if c.isAlpha then .startTag else .text
  | _ => .text

/-- Reads what the characters ahead open. -/
def step (c : Cursor) : Step :=
  match Opening.of c.rest with
  | .comment => comment c
  | .declaration => declaration c
  | .endTag => endTag c
  | .startTag => startTag c
  | .text => text c

/-! ## The whole markup -/

theorem length_rest_tagBody_le (c : Cursor) : (tagBody c).next.rest.length ≤ c.rest.length := by
  fun_induction tagBody c with
  | case1 c d h => exact c.length_rest_skipWhile_le _
  | case2 c d _ h =>
    have : d.rest.length ≤ c.rest.length := c.length_rest_skipWhile_le _
    simp only [Cursor.length_rest_skip]
    omega
  | case3 c d _ h =>
    have : d.rest.length ≤ c.rest.length := c.length_rest_skipWhile_le _
    simp only [Cursor.length_rest_skip]
    omega
  | case4 c d _ h _ ih =>
    have : d.rest.length ≤ c.rest.length := c.length_rest_skipWhile_le _
    rw [Cursor.length_rest_skip] at ih
    omega
  | case5 c d x xs hx hclose hslash h a body ih =>
    have : d.rest.length ≤ c.rest.length := c.length_rest_skipWhile_le _
    have := length_rest_attributeAt_lt d (List.ne_nil_of_length_pos (by simp [h]))
    simp only [a] at ih
    simp only [body, a]
    omega

theorem length_rest_rawText_le (name : String) (c : Cursor) :
    (rawText name c).next.rest.length ≤ c.rest.length := by
  unfold rawText
  split
  · simp [Cursor.length_rest_skip]
  · simp [Cursor.toEnd]

theorem length_rest_step_lt (c : Cursor) (h : c.rest ≠ []) :
    (step c).next.rest.length < c.rest.length := by
  have hpos := List.length_pos_iff.mpr h
  have closed : ((c.skipWhile (· ≠ '>')).skip 1).rest.length < c.rest.length := by
    have := c.length_rest_skipWhile_le (· ≠ '>')
    rw [Cursor.length_rest_skip]
    omega
  unfold step
  split
  · unfold comment
    simp only
    split
    · simp only [Cursor.length_rest_skip]
      omega
    · simpa [Cursor.toEnd] using hpos
  · exact closed
  · exact closed
  · have hname := (c.skip 1).length_rest_skipWhile_le isStartTagNameChar
    have hskip := c.length_rest_skip 1
    have hbody := length_rest_tagBody_le ((c.skip 1).skipWhile isStartTagNameChar)
    unfold startTag
    simp only
    split
    · have hraw := length_rest_rawText_le (lowerName ((c.skip 1).run isStartTagNameChar))
        (tagBody ((c.skip 1).skipWhile isStartTagNameChar)).next
      simp only
      omega
    · simp only
      omega
  · have hskip := c.length_rest_skip 1
    have := (c.skip 1).length_rest_skipWhile_le (· ≠ '<')
    simp only [text]
    omega

/-- The tokens of some markup in order, and what is wrong with it. -/
structure Lexed where
  tokens : List Token
  problems : List Problem
deriving DecidableEq

/-- Reads from the cursor on, after what was read before. -/
def lexFrom (c : Cursor) (tokens : Array Token) (problems : Array Problem) : Lexed :=
  if _h : c.rest = [] then ⟨tokens.toList, problems.toList⟩
  else
    let s := step c
    lexFrom s.next (tokens ++ s.tokens) (problems ++ s.problems)
termination_by c.rest.length
decreasing_by exact length_rest_step_lt c _h

/-- Cuts markup into tokens. -/
def lex (source : String) : Lexed :=
  lexFrom (Cursor.start source) #[] #[]

end PageLint.Markup
