import PageLint.Markup.Lexer

/-!
# Lexing step by step

The tokens of some markup are those of its first step, then those of the markup
after it. The steps of the lexer are described by what they read at the start of
the characters ahead.
-/

namespace PageLint.Markup

theorem isRawTextElement_iff {name : String} :
    isRawTextElement name = true ↔ name = "script" ∨ name = "style" := by
  rw [isRawTextElement, Bool.or_eq_true, decide_eq_true_eq, decide_eq_true_eq]

/-! ## What the characters ahead are, given what they open -/

namespace Opening

variable {cs : List Char}

theorem exists_of_comment (h : of cs = .comment) :
    ∃ rest, cs = '<' :: '!' :: '-' :: '-' :: rest := by
  unfold of at h
  split at h <;> grind

theorem exists_of_declaration (h : of cs = .declaration) :
    (∃ mark rest, (mark = '!' ∨ mark = '?') ∧ cs = '<' :: mark :: rest) ∧
      ∀ rest, cs ≠ '<' :: '!' :: '-' :: '-' :: rest := by
  unfold of at h
  split at h <;> grind

theorem exists_of_endTag (h : of cs = .endTag) :
    ∃ x rest, x.isAlpha = true ∧ cs = '<' :: '/' :: x :: rest := by
  unfold of at h
  split at h <;> grind

theorem exists_of_startTag (h : of cs = .startTag) :
    ∃ x rest, x.isAlpha = true ∧ cs = '<' :: x :: rest := by
  unfold of at h
  split at h <;> grind

end Opening

/-! ## Bodies of start tags -/

/-- What comes after white space decides how the body of a start tag goes on. -/
theorem tagBody_eq (c : Cursor) : tagBody c =
    match c.skipSpace.rest with
    | [] => ⟨[], [], .unclosed, c.skipSpace⟩
    | '>' :: _ => ⟨[], [], .closed, c.skipSpace.skip 1⟩
    | '/' :: '>' :: _ => ⟨[], [], .selfClosed, c.skipSpace.skip 2⟩
    | '/' :: _ => tagBody (c.skipSpace.skip 1)
    | _ :: _ => { tagBody (attributeAt c.skipSpace).next with
        attributes := (attributeAt c.skipSpace).found ::
          (tagBody (attributeAt c.skipSpace).next).attributes
        problems := (attributeAt c.skipSpace).problems ++
          (tagBody (attributeAt c.skipSpace).next).problems } := by
  conv => lhs; rw [tagBody]
  split <;> simp_all

section

variable {c : Cursor} {rest : List Char}

theorem tagBody_of_nil (h : c.skipSpace.rest = []) :
    tagBody c = ⟨[], [], .unclosed, c.skipSpace⟩ := by
  rw [tagBody_eq, h]

theorem tagBody_of_closed (h : c.skipSpace.rest = '>' :: rest) :
    tagBody c = ⟨[], [], .closed, c.skipSpace.skip 1⟩ := by
  rw [tagBody_eq, h]
  rfl

theorem tagBody_of_selfClosed (h : c.skipSpace.rest = '/' :: '>' :: rest) :
    tagBody c = ⟨[], [], .selfClosed, c.skipSpace.skip 2⟩ := by
  rw [tagBody_eq, h]
  rfl

theorem tagBody_of_slash (h : c.skipSpace.rest = '/' :: rest) (hrest : ∀ tail, rest ≠ '>' :: tail) :
    tagBody c = tagBody (c.skipSpace.skip 1) := by
  rw [tagBody_eq, h]
  grind

theorem tagBody_of_attribute {x : Char} (h : c.skipSpace.rest = x :: rest) (hclose : x ≠ '>')
    (hslash : x ≠ '/') :
    tagBody c = { tagBody (attributeAt c.skipSpace).next with
      attributes := (attributeAt c.skipSpace).found ::
        (tagBody (attributeAt c.skipSpace).next).attributes
      problems := (attributeAt c.skipSpace).problems ++
        (tagBody (attributeAt c.skipSpace).next).problems } := by
  rw [tagBody_eq, h]
  grind

end

/-! ## All steps -/

theorem comment_tokens (c : Cursor) :
    (comment c).tokens = [⟨.comment, c.spanTo (comment c).next⟩] := by
  unfold comment
  simp only
  split
  · rfl
  · rfl

/-- What is read from a cursor on. -/
def lexed (c : Cursor) : Lexed := lexFrom c #[] #[]

theorem lex_eq_lexed (source : String) : lex source = lexed (Cursor.start source) := rfl

theorem lexFrom_of_rest_nil {c : Cursor} (h : c.rest = []) (tokens : Array Token)
    (problems : Array Problem) : lexFrom c tokens problems = ⟨tokens.toList, problems.toList⟩ := by
  rw [lexFrom, dif_pos h]

theorem lexFrom_of_rest_ne_nil {c : Cursor} (h : c.rest ≠ []) (tokens : Array Token)
    (problems : Array Problem) :
    lexFrom c tokens problems =
      lexFrom (step c).next (tokens ++ (step c).tokens) (problems ++ (step c).problems) := by
  rw [lexFrom, dif_neg h]

/-- Induction on the steps of the lexer, each of which leaves less ahead. -/
theorem Cursor.stepwise {motive : Cursor → Prop} (done : ∀ c, c.rest = [] → motive c)
    (more : ∀ c, c.rest ≠ [] → motive (step c).next → motive c) (c : Cursor) : motive c := by
  induction hn : c.rest.length using Nat.strongRecOn generalizing c with
  | ind n ih =>
    by_cases h : c.rest = []
    · exact done c h
    · exact more c h (ih _ (hn ▸ length_rest_step_lt c h) _ rfl)

theorem lexFrom_eq (c : Cursor) (tokens : Array Token) (problems : Array Problem) :
    lexFrom c tokens problems =
      ⟨tokens.toList ++ (lexed c).tokens, problems.toList ++ (lexed c).problems⟩ := by
  induction c using Cursor.stepwise generalizing tokens problems with
  | done c h => simp [lexed, lexFrom_of_rest_nil h]
  | more c h ih =>
    rw [lexed, lexFrom_of_rest_ne_nil h, lexFrom_of_rest_ne_nil h, ih, ih (#[] ++ _)]
    simp [List.append_assoc]

theorem lexed_of_rest_nil {c : Cursor} (h : c.rest = []) : lexed c = ⟨[], []⟩ :=
  lexFrom_of_rest_nil h _ _

theorem lexed_of_rest_ne_nil {c : Cursor} (h : c.rest ≠ []) :
    lexed c = ⟨(step c).tokens ++ (lexed (step c).next).tokens,
      (step c).problems ++ (lexed (step c).next).problems⟩ := by
  rw [lexed, lexFrom_of_rest_ne_nil h, lexFrom_eq]
  simp

/-- What holds of all tokens read at a cursor and is passed on from one cursor to
the next one holds of all tokens of the markup. -/
theorem forall_mem_lexed {inv : Cursor → Prop} {p : Token → Prop}
    (tokens : ∀ c, inv c → c.rest ≠ [] → ∀ t ∈ (step c).tokens, p t)
    (next : ∀ c, inv c → c.rest ≠ [] → inv (step c).next) {c : Cursor} (hc : inv c) :
    ∀ t ∈ (lexed c).tokens, p t := by
  induction c using Cursor.stepwise with
  | done c h => simp [lexed_of_rest_nil h]
  | more c h ih =>
    rw [lexed_of_rest_ne_nil h]
    intro t ht
    rcases List.mem_append.mp ht with ht | ht
    · exact tokens c hc h t ht
    · exact ih (next c hc h) t ht

theorem forall_problem_lexed {inv : Cursor → Prop} {p : Problem → Prop}
    (problems : ∀ c, inv c → c.rest ≠ [] → ∀ q ∈ (step c).problems, p q)
    (next : ∀ c, inv c → c.rest ≠ [] → inv (step c).next) {c : Cursor} (hc : inv c) :
    ∀ q ∈ (lexed c).problems, p q := by
  induction c using Cursor.stepwise with
  | done c h => simp [lexed_of_rest_nil h]
  | more c h ih =>
    rw [lexed_of_rest_ne_nil h]
    exact List.forall_mem_append.mpr ⟨problems c hc h, ih (next c hc h)⟩

end PageLint.Markup
