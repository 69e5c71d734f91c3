import PageLint.Proofs.Markup.Lexing

/-!
# Moving markup

Nothing that is read depends on the place of the cursor but the spans: from a cursor with the
same characters ahead some bytes further on, the same is read at spans as many bytes further on.
-/

namespace PageLint.Markup

/-! ## What moves -/

def Span.moved (n : Nat) (span : Span) : Span := ⟨n + span.start, n + span.stop⟩

def RawValue.moved (n : Nat) (value : RawValue) : RawValue :=
  ⟨value.text, value.span.moved n⟩

def RawAttribute.moved (n : Nat) (raw : RawAttribute) : RawAttribute :=
  ⟨raw.name, raw.nameSpan.moved n, raw.value.map (·.moved n)⟩

def TokenKind.moved (n : Nat) : TokenKind → TokenKind
  | .startTag name attributes selfClosing =>
    .startTag name (attributes.map (·.moved n)) selfClosing
  | kind => kind

/-- The token with every span in it `n` bytes further on. -/
def Token.moved (n : Nat) (t : Token) : Token := ⟨t.kind.moved n, t.span.moved n⟩

def Problem.moved (n : Nat) (problem : Problem) : Problem :=
  ⟨problem.defect, problem.span.moved n⟩

def Lexed.moved (n : Nat) (read : Lexed) : Lexed :=
  ⟨read.tokens.map (·.moved n), read.problems.map (·.moved n)⟩

def Cursor.moved (n : Nat) (c : Cursor) : Cursor := ⟨n + c.offset, c.rest⟩

def ValueStep.moved (n : Nat) (v : ValueStep) : ValueStep :=
  ⟨v.value.moved n, v.unclosed, v.next.moved n⟩

def AttributeStep.moved (n : Nat) (a : AttributeStep) : AttributeStep :=
  ⟨a.found.moved n, a.problems.map (·.moved n), a.next.moved n⟩

def TagBody.moved (n : Nat) (body : TagBody) : TagBody :=
  ⟨body.attributes.map (·.moved n), body.problems.map (·.moved n), body.ending, body.next.moved n⟩

def Step.moved (n : Nat) (s : Step) : Step :=
  ⟨s.tokens.map (·.moved n), s.problems.map (·.moved n), s.next.moved n⟩

/-! ## Cursors -/

namespace Cursor

variable (n : Nat) (c : Cursor)

@[simp] theorem rest_moved : (c.moved n).rest = c.rest := rfl

@[simp] theorem run_moved (p : Char → Bool) : (c.moved n).run p = c.run p := rfl

@[simp] theorem spanTo_moved (d : Cursor) :
    (c.moved n).spanTo (d.moved n) = (c.spanTo d).moved n := rfl

@[simp] theorem skip_moved (k : Nat) : (c.moved n).skip k = (c.skip k).moved n := by
  simp [skip, moved, Nat.add_assoc]

@[simp] theorem skipWhile_moved (p : Char → Bool) :
    (c.moved n).skipWhile p = (c.skipWhile p).moved n := by
  simp [skipWhile, moved, Nat.add_assoc]

@[simp] theorem skipSpace_moved : (c.moved n).skipSpace = c.skipSpace.moved n :=
  c.skipWhile_moved n _

@[simp] theorem toEnd_moved : (c.moved n).toEnd = c.toEnd.moved n := by
  simp [toEnd, moved, Nat.add_assoc]

end Cursor

/-! ## Steps -/

section

variable (n : Nat) (c : Cursor)

theorem valueAt_moved : valueAt (c.moved n) = (valueAt c).moved n := by
  have quoted (q : Char) : quotedValue q (c.moved n) = (quotedValue q c).moved n := by
    simp [quotedValue, ValueStep.moved, RawValue.moved]
  unfold valueAt
  rw [Cursor.rest_moved]
  split
  · exact quoted '"'
  · exact quoted '\''
  · simp [unquotedValue, ValueStep.moved, RawValue.moved]

theorem afterName_moved : afterName (c.moved n) = (afterName c).moved n := by
  unfold afterName
  rw [Cursor.run_moved, Cursor.skip_moved, Cursor.skipWhile_moved]
  split
  · rfl
  · rfl

theorem attributeAt_moved : attributeAt (c.moved n) = (attributeAt c).moved n := by
  unfold attributeAt
  simp only [afterName_moved, Cursor.skipSpace_moved, Cursor.skip_moved, valueAt_moved,
    Cursor.rest_moved, Cursor.run_moved]
  split
  · by_cases h : (valueAt ((afterName c).skipSpace.skip 1).skipSpace).unclosed = true
    · simp [AttributeStep.moved, RawAttribute.moved, ValueStep.moved, Problem.moved, h]
    · simp [AttributeStep.moved, RawAttribute.moved, ValueStep.moved, h]
  · rfl

theorem tagBody_moved : tagBody (c.moved n) = (tagBody c).moved n := by
  fun_induction tagBody c with
  | case1 c d h =>
    rw [tagBody_of_nil (by simpa using h), Cursor.skipSpace_moved]
    rfl
  | case2 c d rest h =>
    rw [tagBody_of_closed (by simpa using h), Cursor.skipSpace_moved, Cursor.skip_moved]
    rfl
  | case3 c d rest h =>
    rw [tagBody_of_selfClosed (by simpa using h), Cursor.skipSpace_moved, Cursor.skip_moved]
    rfl
  | case4 c d rest hrest h ih =>
    rw [tagBody_of_slash (by simpa using h) hrest, Cursor.skipSpace_moved, Cursor.skip_moved]
    exact ih
  | case5 c d x xs hx hclose hslash h a body ih =>
    rw [tagBody_of_attribute (by simpa using h) hx hslash, Cursor.skipSpace_moved,
      attributeAt_moved]
    change { tagBody (a.next.moved n) with
      attributes := a.found.moved n :: (tagBody (a.next.moved n)).attributes
      problems := a.problems.map (Problem.moved n) ++ (tagBody (a.next.moved n)).problems } = _
    rw [ih]
    simp [TagBody.moved, body]

theorem rawText_moved (name : String) : rawText name (c.moved n) = (rawText name c).moved n := by
  unfold rawText
  rw [Cursor.rest_moved]
  split
  · simp [Step.moved, Token.moved, TokenKind.moved]
  · simp [Step.moved, Token.moved, TokenKind.moved, Problem.moved]

theorem startTag_moved : startTag (c.moved n) = (startTag c).moved n := by
  unfold startTag
  simp only [Cursor.skip_moved, Cursor.skipWhile_moved, tagBody_moved, Cursor.run_moved,
    TagBody.moved, rawText_moved, Cursor.spanTo_moved]
  split
  · split
    · simp [Step.moved, Token.moved, TokenKind.moved, Problem.moved]
    · simp [Step.moved, Token.moved, TokenKind.moved]
  · split
    · simp [Step.moved, Token.moved, TokenKind.moved, Problem.moved]
    · simp [Step.moved, Token.moved, TokenKind.moved]

theorem endTag_moved : endTag (c.moved n) = (endTag c).moved n := by
  unfold endTag
  simp only [Cursor.skip_moved, Cursor.skipWhile_moved, Cursor.run_moved, Cursor.rest_moved,
    Cursor.spanTo_moved]
  split
  · simp [Step.moved, Token.moved, TokenKind.moved, Problem.moved]
  · simp [Step.moved, Token.moved, TokenKind.moved]

theorem comment_moved : comment (c.moved n) = (comment c).moved n := by
  unfold comment
  simp only [Cursor.skip_moved, Cursor.toEnd_moved, Cursor.rest_moved, Cursor.spanTo_moved]
  split
  · simp [Step.moved, Token.moved, TokenKind.moved]
  · simp [Step.moved, Token.moved, TokenKind.moved, Problem.moved]

theorem step_moved : step (c.moved n) = (step c).moved n := by
  unfold step
  rw [Cursor.rest_moved]
  split
  · exact comment_moved n c
  · simp [declaration, Step.moved, Token.moved, TokenKind.moved]
  · exact endTag_moved n c
  · exact startTag_moved n c
  · simp [text, Step.moved, Token.moved, TokenKind.moved]

end

/-! ## All steps -/

/-- The same characters are read in the same way wherever they stand. -/
theorem lexed_moved (n : Nat) (c : Cursor) : lexed (c.moved n) = (lexed c).moved n := by
  induction c using Cursor.stepwise with
  | done c hc =>
    rw [lexed_of_rest_nil hc, lexed_of_rest_nil (by rwa [Cursor.rest_moved])]
    rfl
  | more c hc ih =>
    rw [lexed_of_rest_ne_nil hc, lexed_of_rest_ne_nil (by rwa [Cursor.rest_moved]), step_moved]
    simp [Step.moved, Lexed.moved, ih]

end PageLint.Markup
