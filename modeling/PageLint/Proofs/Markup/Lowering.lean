import PageLint.Proofs.Markup.Lexing
import PageLint.Proofs.Text.Case

/-!
# Markup in lower case

Nothing that is read depends on the case of letters but the values of attributes and texts, and
these keep the case that they are written in: markup in lower case is read as the same tokens at
the same spans, with values and texts in lower case.
-/

namespace PageLint.Markup

/-! ## What is put in lower case -/

def RawValue.lowered (value : RawValue) : RawValue := ⟨Text.lower value.text, value.span⟩

def RawAttribute.lowered (raw : RawAttribute) : RawAttribute :=
  { raw with value := raw.value.map (·.lowered) }

def TokenKind.lowered : TokenKind → TokenKind
  | .startTag name attributes selfClosing =>
    .startTag name (attributes.map (·.lowered)) selfClosing
  | .text content => .text (Text.lower content)
  | kind => kind

/-- The token with the values and the text in it in lower case. -/
def Token.lowered (t : Token) : Token := ⟨t.kind.lowered, t.span⟩

def Lexed.lowered (read : Lexed) : Lexed := ⟨read.tokens.map (·.lowered), read.problems⟩

/-- The cursor with all characters ahead in lower case. -/
def Cursor.lowered (c : Cursor) : Cursor := ⟨c.offset, c.rest.map Char.toLower⟩

def ValueStep.lowered (v : ValueStep) : ValueStep := ⟨v.value.lowered, v.unclosed, v.next.lowered⟩

def AttributeStep.lowered (a : AttributeStep) : AttributeStep :=
  ⟨a.found.lowered, a.problems, a.next.lowered⟩

def TagBody.lowered (body : TagBody) : TagBody :=
  ⟨body.attributes.map (·.lowered), body.problems, body.ending, body.next.lowered⟩

def Step.lowered (s : Step) : Step := ⟨s.tokens.map (·.lowered), s.problems, s.next.lowered⟩

theorem lowerName_map_toLower (cs : List Char) :
    lowerName (cs.map Char.toLower) = lowerName cs := by
  rw [lowerName, lowerName, Text.map_toLower_map_toLower]

/-! ## Tests of characters -/

section

variable (c : Char)

theorem isAttributeNameChar_toLower : isAttributeNameChar c.toLower = isAttributeNameChar c := by
  simp only [isAttributeNameChar, Text.isMarkupSpace_toLower, ne_eq,
    Text.toLower_eq_iff (show '>'.isAlpha = false by decide),
    Text.toLower_eq_iff (show '/'.isAlpha = false by decide),
    Text.toLower_eq_iff (show '='.isAlpha = false by decide)]

theorem isUnquotedChar_toLower : isUnquotedChar c.toLower = isUnquotedChar c := by
  simp only [isUnquotedChar, Text.isMarkupSpace_toLower, ne_eq,
    Text.toLower_eq_iff (show '>'.isAlpha = false by decide)]

theorem isStartTagNameChar_toLower : isStartTagNameChar c.toLower = isStartTagNameChar c := by
  simp only [isStartTagNameChar, Text.isMarkupSpace_toLower, ne_eq,
    Text.toLower_eq_iff (show '>'.isAlpha = false by decide),
    Text.toLower_eq_iff (show '/'.isAlpha = false by decide)]

theorem isEndTagNameChar_toLower : isEndTagNameChar c.toLower = isEndTagNameChar c := by
  simp only [isEndTagNameChar, Text.isMarkupSpace_toLower, ne_eq,
    Text.toLower_eq_iff (show '>'.isAlpha = false by decide)]

theorem ne_toLower {d : Char} (hd : d.isAlpha = false) :
    decide (c.toLower ≠ d) = decide (c ≠ d) := by
  simp only [ne_eq, Text.toLower_eq_iff hd]

end

/-! ## Signs that open -/

/-- What the characters ahead open is decided by the signs that they start with, and by whether
what comes behind these is a letter. -/
theorem Opening.of_eq (cs : List Char) : Opening.of cs =
    if ['<', '!', '-', '-'].isPrefixOf cs then .comment
    else if ['<', '!'].isPrefixOf cs || ['<', '?'].isPrefixOf cs then .declaration
    else if ['<', '/'].isPrefixOf cs && (cs.drop 2).head?.any Char.isAlpha then .endTag
    else if ['<'].isPrefixOf cs && (cs.drop 1).head?.any Char.isAlpha then .startTag
    else .text := by
  unfold Opening.of
  split
  · rfl
  · next tail h =>
    have hcomment : ['<', '!', '-', '-'].isPrefixOf ('<' :: '!' :: tail) = false := by
      rw [Bool.eq_false_iff, Ne, List.isPrefixOf_iff_prefix]
      rintro ⟨more, hmore⟩
      cases hmore
      exact h more rfl
    rw [hcomment]
    rfl
  · rfl
  · rfl
  · next x tail _ hbang hquery hslash =>
    have hx : ('!' == x) = false ∧ ('?' == x) = false := by grind
    cases tail with
    | nil => simp [List.isPrefixOf, hx]
    | cons y ys =>
      have hslash : ('/' == x) = false := by grind
      simp [List.isPrefixOf, hx, hslash]
  · next h =>
    cases cs with
    | nil => rfl
    | cons x xs =>
      cases xs with
      | nil => simp [List.isPrefixOf]
      | cons y ys =>
        have hx : ('<' == x) = false := beq_eq_false_iff_ne.mpr fun hx => h y ys (hx ▸ rfl)
        simp [List.isPrefixOf, hx]

theorem Opening.of_map_toLower (cs : List Char) :
    Opening.of (cs.map Char.toLower) = Opening.of cs := by
  have hany (o : Option Char) : (o.map Char.toLower).any Char.isAlpha = o.any Char.isAlpha := by
    rw [Option.any_map]
    exact congrArg o.any (funext Text.isAlpha_toLower)
  rw [Opening.of_eq, Opening.of_eq, ← List.map_drop, ← List.map_drop, List.head?_map,
    List.head?_map, hany, hany, Text.isPrefixOf_map_toLower (by decide),
    Text.isPrefixOf_map_toLower (by decide), Text.isPrefixOf_map_toLower (by decide),
    Text.isPrefixOf_map_toLower (by decide), Text.isPrefixOf_map_toLower (by decide)]

/-! ## Cursors -/

namespace Cursor

variable (c : Cursor)

theorem rest_lowered : c.lowered.rest = c.rest.map Char.toLower := rfl

@[simp] theorem rest_lowered_eq_nil : c.lowered.rest = [] ↔ c.rest = [] := List.map_eq_nil_iff

@[simp] theorem spanTo_lowered (d : Cursor) : c.lowered.spanTo d.lowered = c.spanTo d := rfl

@[simp] theorem skip_lowered (k : Nat) : c.lowered.skip k = (c.skip k).lowered := by
  rw [skip, rest_lowered, ← List.map_take, ← List.map_drop, Text.byteLength_map_toLower]
  rfl

@[simp] theorem toEnd_lowered : c.lowered.toEnd = c.toEnd.lowered := by
  rw [toEnd, rest_lowered, Text.byteLength_map_toLower]
  rfl

theorem head?_lowered {d : Char} (hd : d.isAlpha = false) :
    c.lowered.rest.head? = some d ↔ c.rest.head? = some d := by
  rw [rest_lowered, List.head?_map, Option.map_eq_some_iff]
  constructor
  · rintro ⟨x, hx, hlower⟩
    rwa [(Text.toLower_eq_iff hd).mp hlower] at hx
  · intro h
    exact ⟨d, h, (Text.toLower_eq_iff hd).mpr rfl⟩

section

variable {p : Char → Bool} (hp : ∀ c, p c.toLower = p c)

include hp

theorem run_lowered : c.lowered.run p = (c.run p).map Char.toLower :=
  Text.takeWhile_map_toLower hp c.rest

theorem skipWhile_lowered : c.lowered.skipWhile p = (c.skipWhile p).lowered := by
  rw [skipWhile, rest_lowered, Text.takeWhile_map_toLower hp, Text.dropWhile_map_toLower hp,
    Text.byteLength_map_toLower]
  rfl

end

section

variable {d : Char} (hd : d.isAlpha = false)

include hd

theorem run_ne_lowered : c.lowered.run (· ≠ d) = (c.run (· ≠ d)).map Char.toLower :=
  c.run_lowered fun x => ne_toLower x hd

theorem skipWhile_ne_lowered : c.lowered.skipWhile (· ≠ d) = (c.skipWhile (· ≠ d)).lowered :=
  c.skipWhile_lowered fun x => ne_toLower x hd

end

@[simp] theorem skipSpace_lowered : c.lowered.skipSpace = c.skipSpace.lowered :=
  c.skipWhile_lowered Text.isMarkupSpace_toLower

end Cursor

/-! ## Steps -/

section

variable (c : Cursor)

theorem quotedValue_lowered {quote : Char} (hquote : quote.isAlpha = false) :
    quotedValue quote c.lowered = (quotedValue quote c).lowered := by
  simp only [quotedValue, Cursor.skip_lowered, Cursor.skipWhile_ne_lowered _ hquote,
    Cursor.run_ne_lowered _ hquote, Cursor.spanTo_lowered, ← Text.lower_ofList, ValueStep.lowered,
    RawValue.lowered, Cursor.rest_lowered, List.isEmpty_map]

theorem valueAt_lowered : valueAt c.lowered = (valueAt c).lowered := by
  unfold valueAt
  split
  · next h =>
    rw [(c.head?_lowered (by decide)).mp h]
    exact quotedValue_lowered c (by decide)
  · next h =>
    rw [(c.head?_lowered (by decide)).mp h]
    exact quotedValue_lowered c (by decide)
  · next hdouble hsingle =>
    rw [c.head?_lowered (by decide)] at hdouble hsingle
    split
    · contradiction
    · contradiction
    · simp only [unquotedValue, c.run_lowered isUnquotedChar_toLower,
        c.skipWhile_lowered isUnquotedChar_toLower, Cursor.spanTo_lowered, ← Text.lower_ofList]
      rfl

theorem afterName_lowered : afterName c.lowered = (afterName c).lowered := by
  simp only [afterName, c.run_lowered isAttributeNameChar_toLower, List.map_eq_nil_iff,
    Cursor.skip_lowered, c.skipWhile_lowered isAttributeNameChar_toLower]
  split
  · rfl
  · rfl

theorem attributeAt_lowered : attributeAt c.lowered = (attributeAt c).lowered := by
  unfold attributeAt
  simp only [afterName_lowered, Cursor.skipSpace_lowered, Cursor.skip_lowered, valueAt_lowered,
    Cursor.head?_lowered _ (show '='.isAlpha = false by decide),
    c.run_lowered isAttributeNameChar_toLower, lowerName_map_toLower, Cursor.spanTo_lowered]
  split
  · rfl
  · rfl

theorem tagBody_lowered : tagBody c.lowered = (tagBody c).lowered := by
  fun_induction tagBody c with
  | case1 c d h =>
    rw [tagBody_of_nil (by simpa using h), Cursor.skipSpace_lowered]
    rfl
  | case2 c d rest h =>
    have hd : c.lowered.skipSpace.rest = '>' :: rest.map Char.toLower := by
      rw [Cursor.skipSpace_lowered, Cursor.rest_lowered, h]
      rfl
    rw [tagBody_of_closed hd, Cursor.skipSpace_lowered, Cursor.skip_lowered]
    rfl
  | case3 c d rest h =>
    have hd : c.lowered.skipSpace.rest = '/' :: '>' :: rest.map Char.toLower := by
      rw [Cursor.skipSpace_lowered, Cursor.rest_lowered, h]
      rfl
    rw [tagBody_of_selfClosed hd, Cursor.skipSpace_lowered, Cursor.skip_lowered]
    rfl
  | case4 c d rest hrest h ih =>
    have hd : c.lowered.skipSpace.rest = '/' :: rest.map Char.toLower := by
      rw [Cursor.skipSpace_lowered, Cursor.rest_lowered, h]
      rfl
    have hnot : ∀ tail, rest.map Char.toLower ≠ '>' :: tail := by
      intro tail htail
      obtain ⟨x, xs, rfl, hx, -⟩ := List.map_eq_cons_iff.mp htail
      exact hrest xs ((Text.toLower_eq_iff (by decide)).mp hx ▸ rfl)
    rw [tagBody_of_slash hd hnot, Cursor.skipSpace_lowered, Cursor.skip_lowered]
    exact ih
  | case5 c d x xs hx hclose hslash h a body ih =>
    have hd : c.lowered.skipSpace.rest = x.toLower :: xs.map Char.toLower := by
      rw [Cursor.skipSpace_lowered, Cursor.rest_lowered, h]
      rfl
    have hclose' : x.toLower ≠ '>' := mt (Text.toLower_eq_iff (by decide)).mp hx
    have hslash' : x.toLower ≠ '/' := mt (Text.toLower_eq_iff (by decide)).mp hslash
    rw [tagBody_of_attribute hd hclose' hslash', Cursor.skipSpace_lowered, attributeAt_lowered]
    change { tagBody a.next.lowered with
      attributes := a.found.lowered :: (tagBody a.next.lowered).attributes
      problems := a.problems ++ (tagBody a.next.lowered).problems } = _
    rw [ih]
    rfl

theorem rawText_lowered (name : String) : rawText name c.lowered = (rawText name c).lowered := by
  unfold rawText
  rw [Cursor.rest_lowered, Text.suffixIndex?_map_toLower (Text.startsIgnoringCase_map_toLower _)]
  split
  · simp only [← List.map_take, ← Text.lower_ofList, Cursor.skip_lowered, Cursor.spanTo_lowered]
    rfl
  · simp only [← Text.lower_ofList, Cursor.toEnd_lowered, Cursor.spanTo_lowered]
    rfl

theorem startTag_lowered : startTag c.lowered = (startTag c).lowered := by
  unfold startTag
  simp only [Cursor.skip_lowered, Cursor.skipWhile_lowered _ isStartTagNameChar_toLower,
    tagBody_lowered, Cursor.run_lowered _ isStartTagNameChar_toLower, lowerName_map_toLower,
    TagBody.lowered, rawText_lowered, Cursor.spanTo_lowered]
  split
  · rfl
  · rfl

theorem endTag_lowered : endTag c.lowered = (endTag c).lowered := by
  simp only [endTag, Cursor.skip_lowered,
    Cursor.skipWhile_ne_lowered _ (show '>'.isAlpha = false by decide),
    Cursor.run_lowered _ isEndTagNameChar_toLower, lowerName_map_toLower, Cursor.rest_lowered,
    Cursor.spanTo_lowered, List.isEmpty_map]
  rfl

theorem comment_lowered : comment c.lowered = (comment c).lowered := by
  unfold comment
  simp only [Cursor.skip_lowered, Cursor.toEnd_lowered, Cursor.rest_lowered,
    Text.suffixIndex?_map_toLower
      (Text.isPrefixOf_map_toLower (show ['-', '-', '>'].any Char.isAlpha = false by decide)),
    Cursor.spanTo_lowered]
  split
  · rfl
  · rfl

theorem step_lowered : step c.lowered = (step c).lowered := by
  have hclose : '>'.isAlpha = false := by decide
  have hopen : '<'.isAlpha = false := by decide
  unfold step
  rw [Cursor.rest_lowered, Opening.of_map_toLower]
  split
  · exact comment_lowered c
  · simp only [declaration, Cursor.skip_lowered, Cursor.skipWhile_ne_lowered _ hclose]
    rfl
  · exact endTag_lowered c
  · exact startTag_lowered c
  · simp only [text, Cursor.skip_lowered, Cursor.skipWhile_ne_lowered _ hopen,
      Cursor.run_ne_lowered _ hopen, Cursor.rest_lowered, ← List.map_take, ← List.map_append,
      ← Text.lower_ofList]
    rfl

end

/-! ## All steps -/

/-- Characters in lower case are read as what they are read as in their own case. -/
theorem lexed_lowered (c : Cursor) : lexed c.lowered = (lexed c).lowered := by
  induction c using Cursor.stepwise with
  | done c hc =>
    rw [lexed_of_rest_nil hc, lexed_of_rest_nil (by rwa [Cursor.rest_lowered_eq_nil])]
    rfl
  | more c hc ih =>
    rw [lexed_of_rest_ne_nil hc, lexed_of_rest_ne_nil (by rwa [Ne, Cursor.rest_lowered_eq_nil]),
      step_lowered]
    simp [Step.lowered, Lexed.lowered, ih]

theorem lex_lower (source : String) : lex (Text.lower source) = (lex source).lowered := by
  rw [lex_eq_lexed, lex_eq_lexed, ← lexed_lowered, Cursor.start, Text.toList_lower]
  rfl

end PageLint.Markup
