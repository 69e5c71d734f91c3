import PageLint.Proofs.Diagnostic.OneLine
import PageLint.Proofs.Markup.Located
import PageLint.Proofs.Markup.Tiling
import PageLint.Proofs.Text.Search

/-!
# Names have no line feeds

White space ends every name, that of a tag or an attribute that is never closed as well. So
what the parser says about some markup fits on a line, although it quotes names.
-/

namespace PageLint.Markup

open Text (OneLine)

theorem oneLine_lowerName {p : Char → Bool} (hp : p '\n' = false) (c : Cursor) :
    OneLine (lowerName (c.run p)) := by
  intro h
  rw [lowerName, String.toList_ofList] at h
  obtain ⟨x, hx, hlower⟩ := List.mem_map.mp h
  have hrun := List.mem_takeWhile_imp hx
  rw [Text.eq_of_toLower_eq hlower (by decide), hp] at hrun
  cases hrun

/-- What is said about the problem fits on a line. -/
def Problem.OneLine (problem : Problem) : Prop := Text.OneLine problem.defect.message

/-- The name of an end tag fits on a line. -/
def Token.OneLine (t : Token) : Prop := ∀ name, t.kind = .endTag name → Text.OneLine name

/-- Both ends of a message are fixed, and only the name between them is quoted. -/
theorem oneLine_quoted {before after name : String} (hbefore : OneLine before)
    (hname : OneLine name) (hafter : OneLine after) : OneLine (before ++ name ++ after) :=
  Text.oneLine_append.mpr ⟨Text.oneLine_append.mpr ⟨hbefore, hname⟩, hafter⟩

theorem Problem.OneLine.located {problem : Problem} (h : problem.OneLine) (file : SourceFile) :
    (problem.located file).OneLine := by
  refine ⟨?_, h⟩
  change Text.OneLine problem.defect.code
  cases problem.defect <;> rw [Defect.code] <;> decide

/-! ## Steps -/

theorem oneLine_attributeAt (c : Cursor) : ∀ p ∈ (attributeAt c).problems, p.OneLine := by
  unfold attributeAt
  simp only
  split
  · intro p hp
    simp only at hp
    split at hp
    · rw [List.mem_singleton.mp hp]
      exact oneLine_quoted (by decide) (oneLine_lowerName rfl c) (by decide)
    · cases hp
  · exact List.forall_mem_nil _

theorem oneLine_tagBody (c : Cursor) : ∀ p ∈ (tagBody c).problems, p.OneLine := by
  fun_induction tagBody c with
  | case1 c d hd => exact List.forall_mem_nil _
  | case2 c d _ hd => exact List.forall_mem_nil _
  | case3 c d _ hd => exact List.forall_mem_nil _
  | case4 c d _ hd _ ih => exact ih
  | case5 c d x xs hx hclose hslash hd a body ih =>
    exact List.forall_mem_append.mpr ⟨oneLine_attributeAt d, ih⟩

theorem oneLine_rawText {name : String} (h : OneLine name) (c : Cursor) :
    ∀ p ∈ (rawText name c).problems, p.OneLine := by
  unfold rawText
  split
  · exact List.forall_mem_nil _
  · exact List.forall_mem_singleton.mpr (oneLine_quoted (by decide) h (by decide))

theorem oneLine_startTag (c : Cursor) : ∀ p ∈ (startTag c).problems, p.OneLine := by
  let body := tagBody ((c.skip 1).skipWhile isStartTagNameChar)
  have hname := oneLine_lowerName (p := isStartTagNameChar) rfl (c.skip 1)
  have hbody := oneLine_tagBody ((c.skip 1).skipWhile isStartTagNameChar)
  have hall : ∀ p ∈ (if body.ending = .unclosed then body.problems ++
      [⟨.startTag (lowerName ((c.skip 1).run isStartTagNameChar)), c.spanTo body.next⟩]
      else body.problems), p.OneLine := by
    split
    · refine List.forall_mem_append.mpr ⟨hbody, List.forall_mem_singleton.mpr ?_⟩
      exact oneLine_quoted (by decide) hname (by decide)
    · exact hbody
  unfold startTag
  simp only
  split
  · exact List.forall_mem_append.mpr ⟨hall, oneLine_rawText hname _⟩
  · exact hall

theorem oneLine_endTag (c : Cursor) :
    (∀ t ∈ (endTag c).tokens, t.OneLine) ∧ ∀ p ∈ (endTag c).problems, p.OneLine := by
  have hname := oneLine_lowerName (p := isEndTagNameChar) rfl (c.skip 2)
  constructor
  · refine List.forall_mem_singleton.mpr ?_
    rintro name ⟨⟩
    exact hname
  · intro p hp
    change p ∈ (if _ then _ else _) at hp
    split at hp
    · rw [List.mem_singleton.mp hp]
      exact oneLine_quoted (by decide) hname (by decide)
    · cases hp

theorem oneLine_comment (c : Cursor) : ∀ p ∈ (comment c).problems, p.OneLine := by
  unfold comment
  simp only
  split
  · exact List.forall_mem_nil _
  · exact List.forall_mem_singleton.mpr (by decide : OneLine "comment is never closed")

theorem oneLine_tokens_of_not_endTag {ts : List Token} (h : ∀ t ∈ ts, ∀ name, t.kind ≠ .endTag name) :
    ∀ t ∈ ts, t.OneLine :=
  fun t ht name hkind => absurd hkind (h t ht name)

theorem oneLine_step (c : Cursor) :
    (∀ t ∈ (step c).tokens, t.OneLine) ∧ ∀ p ∈ (step c).problems, p.OneLine := by
  unfold step
  split
  · refine ⟨oneLine_tokens_of_not_endTag ?_, oneLine_comment c⟩
    rw [comment_tokens]
    exact List.forall_mem_singleton.mpr nofun
  · exact ⟨List.forall_mem_singleton.mpr nofun, List.forall_mem_nil _⟩
  · exact oneLine_endTag c
  · refine ⟨oneLine_tokens_of_not_endTag ?_, oneLine_startTag c⟩
    unfold startTag
    simp only
    split
    · obtain ⟨content, htext⟩ := rawText_tokens (lowerName ((c.skip 1).run isStartTagNameChar))
        (tagBody ((c.skip 1).skipWhile isStartTagNameChar)).next
      rw [htext]
      exact List.forall_mem_cons.mpr ⟨nofun, List.forall_mem_singleton.mpr nofun⟩
    · exact List.forall_mem_singleton.mpr nofun
  · exact ⟨List.forall_mem_singleton.mpr nofun, List.forall_mem_nil _⟩

/-! ## All of the markup -/

theorem oneLine_tokens_lex (source : String) : ∀ t ∈ (lex source).tokens, t.OneLine :=
  forall_mem_lexed (fun c (_ : True) _ => (oneLine_step c).1) (fun _ _ _ => trivial) trivial

theorem oneLine_problems_lex (source : String) : ∀ p ∈ (lex source).problems, p.OneLine :=
  forall_problem_lexed (fun c (_ : True) _ => (oneLine_step c).2) (fun _ _ _ => trivial) trivial

/-- All that the parser says of a page fits on a line each. -/
theorem oneLine_parse {url : Path} {contents : String} {parsed : Parsed}
    (h : parse url contents none = .ok parsed) : ∀ w ∈ parsed.warnings, w.OneLine := by
  intro w hw
  rcases mem_warnings_parse h hw with ⟨problem, hproblem, rfl⟩ | ⟨t, ht, name, hkind, rfl⟩
  · exact (oneLine_problems_lex contents problem hproblem).located _
  · have hname := oneLine_tokens_lex contents t ht name hkind
    have hcode : OneLine "unmatched-end-tag" := by decide
    exact ⟨hcode, oneLine_quoted (by decide) hname (by decide)⟩

end PageLint.Markup
