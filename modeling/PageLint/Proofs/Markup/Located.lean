import PageLint.Markup.Parser
import PageLint.Proofs.Outcome

/-!
# Parsing a page

Markup that is a page of its own can always be located, so its tree is built by
plain steps. `parse_page` says that parsing is the fold of these steps.
-/

namespace PageLint

/-- The part of a file that a span of its bytes covers. -/
def SourceFile.rangeOf (file : SourceFile) (span : Markup.Span) : SourceRange :=
  ⟨file.path, file.positionAt span.start, file.positionAt span.stop⟩

namespace Markup

variable (file : SourceFile)

/-- The attribute in the file for an attribute of a start tag. -/
def RawAttribute.located (raw : RawAttribute) : Attribute :=
  ⟨raw.name, raw.value.map (·.text), file.rangeOf (match raw.value with
    | some value => value.span
    | none => raw.nameSpan)⟩

/-- The warning about a defect of the file. -/
def Problem.located (problem : Problem) : Warning :=
  .warning problem.defect.code problem.defect.message (file.rangeOf problem.span)

theorem attribute_page (raw : RawAttribute) :
    (⟨file, none⟩ : Locator).attribute raw = .ok (raw.located file) := rfl

theorem warning_page (problem : Problem) :
    (⟨file, none⟩ : Locator).warning problem = .ok (problem.located file) := rfl

namespace Builder

/-- Adds an element of the file. -/
def opening (b : Builder) (name : String) (attributes : List RawAttribute) (selfClosing : Bool)
    (span : Span) : Builder :=
  let node : Node :=
    ⟨name, file.rangeOf span, attributes.map (·.located file), none, none, b.opened.head?.map (·.1)⟩
  let opened := if selfClosing || voidElements.contains name then b.opened
    else ((b.tree.push node).2, name) :: b.opened
  ⟨(b.tree.push node).1, opened, if selfClosing then none else innermostRawText opened, b.warnings⟩

/-- Closes the innermost element of a name. -/
def closing (b : Builder) (name : String) (span : Span) : Builder :=
  match b.opened.findIdx? (·.2 = name) with
  | none => ⟨b.tree, b.opened, none, b.warnings.push
      (.info "unmatched-end-tag" s!"</{name}> has no matching start tag" (file.rangeOf span))⟩
  | some k => ⟨stopAt b.tree (file.positionAt span.stop) (b.opened.take (k + 1)),
      b.opened.drop (k + 1), none, b.warnings⟩

/-- Gives some text to the element that waits for it. -/
def filling (b : Builder) (content : String) (span : Span) : Builder :=
  match b.awaiting with
  | none => b
  | some id =>
    ⟨b.tree.modify id fun node =>
        { node with textRange := some (file.rangeOf span), text := some content },
      b.opened, none, b.warnings⟩

/-- Takes in a token of the file. -/
def taking (b : Builder) (t : Token) : Builder :=
  match t.kind with
  | .startTag name attributes selfClosing => b.opening file name attributes selfClosing t.span
  | .endTag name => b.closing file name t.span
  | .text content => b.filling file content t.span
  | .comment | .declaration => { b with awaiting := none }

theorem startTag_page (b : Builder) (name : String) (attributes : List RawAttribute)
    (selfClosing : Bool) (span : Span) :
    b.startTag ⟨file, none⟩ name attributes selfClosing span =
      .ok (b.opening file name attributes selfClosing span) := by
  rw [startTag, mapM_eq_ok fun raw _ => attribute_page file raw]
  rfl

theorem endTag_page (b : Builder) (name : String) (span : Span) :
    b.endTag ⟨file, none⟩ name span = .ok (b.closing file name span) := by
  obtain ⟨tree, opened, awaiting, warnings⟩ := b
  rw [endTag, closing]
  simp only
  cases opened.findIdx? (·.2 = name) with
  | none => rfl
  | some k => rfl

theorem text_page (b : Builder) (content : String) (span : Span) :
    b.text ⟨file, none⟩ content span = .ok (b.filling file content span) := by
  obtain ⟨tree, opened, awaiting, warnings⟩ := b
  cases awaiting with
  | none => rfl
  | some id => rfl

theorem token_page (b : Builder) (t : Token) :
    b.token ⟨file, none⟩ t = .ok (b.taking file t) := by
  obtain ⟨kind, span⟩ := t
  cases kind with
  | startTag name attributes selfClosing => exact b.startTag_page file _ _ _ _
  | endTag name => exact b.endTag_page file _ _
  | text content => exact b.text_page file _ _
  | comment => rfl
  | declaration => rfl

theorem foldlM_token_page (b : Builder) (tokens : List Token) :
    tokens.foldlM (Builder.token · ⟨file, none⟩) b = .ok (tokens.foldl (taking file) b) := by
  induction tokens generalizing b with
  | nil => rfl
  | cons t tokens ih =>
    rw [List.foldlM_cons, token_page]
    exact ih _

end Builder

/-- The builder after all tokens of a page. -/
def built (url : Path) (contents : String) : Builder :=
  let file := SourceFile.ofContent url contents
  (lex contents).tokens.foldl (Builder.taking file)
    ⟨Tree.empty, [], none, ((lex contents).problems.map (·.located file)).toArray⟩

/-- Parsing a page takes in its tokens one after the other. -/
theorem parse_page (url : Path) (contents : String) :
    parse url contents none =
      .ok ⟨(built url contents).finish
          ((SourceFile.ofContent url contents).positionAt (Text.byteLength contents.toList)),
        (built url contents).warnings.toList⟩ := by
  rw [parse, mapM_eq_ok fun problem _ => warning_page _ problem]
  change (Except.bind (List.foldlM _ _ _) _) = _
  rw [Builder.foldlM_token_page]
  rfl

/-! ## What the parser warns about -/

/-- The warning about an end tag that closes nothing. -/
def Token.UnmatchedBy (t : Token) (w : Warning) : Prop :=
  ∃ name, t.kind = .endTag name ∧
    w = .info "unmatched-end-tag" s!"</{name}> has no matching start tag" (file.rangeOf t.span)

theorem Builder.mem_warnings_taking {b : Builder} {t : Token} {w : Warning}
    (h : w ∈ (b.taking file t).warnings.toList) : w ∈ b.warnings.toList ∨ t.UnmatchedBy file w := by
  obtain ⟨kind, span⟩ := t
  cases kind with
  | startTag name attributes selfClosing => exact Or.inl h
  | endTag name =>
    change w ∈ (b.closing file name span).warnings.toList at h
    unfold closing at h
    split at h
    · rw [Array.toList_push, List.mem_append, List.mem_singleton] at h
      exact h.imp_right fun hw => ⟨name, rfl, hw⟩
    · exact Or.inl h
  | text content =>
    change w ∈ (b.filling file content span).warnings.toList at h
    unfold filling at h
    split at h
    · exact Or.inl h
    · exact Or.inl h
  | comment => exact Or.inl h
  | declaration => exact Or.inl h

theorem Builder.mem_warnings_foldl_taking {b : Builder} {tokens : List Token} {w : Warning}
    (h : w ∈ (tokens.foldl (Builder.taking file) b).warnings.toList) :
    w ∈ b.warnings.toList ∨ ∃ t ∈ tokens, t.UnmatchedBy file w := by
  induction tokens generalizing b with
  | nil => exact Or.inl h
  | cons t tokens ih =>
    rcases ih h with hw | ⟨t', ht', hw⟩
    · exact (mem_warnings_taking file hw).imp_right fun hw => ⟨t, List.mem_cons_self, hw⟩
    · exact Or.inr ⟨t', List.mem_cons_of_mem _ ht', hw⟩

/-- All that the parser says of a page is about a problem of the markup or about an end tag
that closes nothing. -/
theorem mem_warnings_parse {url : Path} {contents : String} {parsed : Parsed}
    (h : parse url contents none = .ok parsed) {w : Warning} (hw : w ∈ parsed.warnings) :
    (∃ problem ∈ (lex contents).problems, w = problem.located (SourceFile.ofContent url contents)) ∨
      ∃ t ∈ (lex contents).tokens, t.UnmatchedBy (SourceFile.ofContent url contents) w := by
  rw [parse_page] at h
  cases h
  refine (Builder.mem_warnings_foldl_taking _ hw).imp_left fun hw => ?_
  obtain ⟨problem, hproblem, rfl⟩ := List.mem_map.mp hw
  exact ⟨problem, hproblem, rfl⟩

end Markup

end PageLint
