import PageLint.Proofs.Markup.Tiling

/-!
# Spans lie in the markup

Whatever the lexer reads, it reads from one cursor to a later one. So all spans that it gives,
those of names and values of attributes and those of problems among them, run between
boundaries of the markup.
-/

namespace PageLint.Markup

/-- The span runs between boundaries of the markup `cs`. -/
structure Span.In (cs : List Char) (span : Span) : Prop where
  start : Text.IsBoundary cs span.start
  stop : Text.IsBoundary cs span.stop
  le : span.start ≤ span.stop

/-- The name of the attribute is in the markup, and so is its value if there is one. -/
structure RawAttribute.In (cs : List Char) (raw : RawAttribute) : Prop where
  name : raw.nameSpan.In cs
  value {value : RawValue} (h : raw.value = some value) : value.span.In cs

/-- The attributes of a token, if it is a start tag. -/
def Token.attributes (t : Token) : List RawAttribute :=
  match t.kind with
  | .startTag _ attributes _ => attributes
  | _ => []

variable {cs : List Char} {c : Cursor}

theorem Token.Covers.span_in {t : Token} (h : t.Covers cs) : t.span.In cs :=
  ⟨h.start, h.stop, h.le⟩

theorem Cursor.In.span_in (hc : c.In cs) {d : Cursor} (hd : d.In cs)
    (hlen : d.rest.length ≤ c.rest.length) : (c.spanTo d).In cs :=
  ⟨hc.isBoundary, hd.isBoundary, Nat.le_trans (Nat.le_add_right _ _) (hc.offset_add_le hd hlen)⟩

/-! ## Attributes -/

theorem Cursor.In.afterName (h : c.In cs) : (afterName c).In cs := by
  unfold Markup.afterName
  split
  · exact h.skip 1
  · exact h.skipWhile _

theorem length_rest_afterName_le (c : Cursor) : (afterName c).rest.length ≤ c.rest.length := by
  unfold afterName
  split
  · rw [Cursor.length_rest_skip]
    exact Nat.sub_le _ _
  · exact c.length_rest_skipWhile_le _

theorem span_in_valueAt (h : c.In cs) : (valueAt c).value.span.In cs := by
  have quoted (q : Char) : (quotedValue q c).value.span.In cs :=
    (h.skip 1).span_in ((h.skip 1).skipWhile _) (Cursor.length_rest_skipWhile_le _ _)
  unfold valueAt
  split
  · exact quoted '"'
  · exact quoted '\''
  · exact h.span_in (h.skipWhile _) (c.length_rest_skipWhile_le _)

/-- The attribute at a cursor lies in the markup, and so does what is wrong with it. -/
theorem in_attribute (h : c.In cs) :
    (attributeAt c).found.In cs ∧ ∀ p ∈ (attributeAt c).problems, p.span.In cs := by
  have hname := h.span_in h.afterName (length_rest_afterName_le c)
  have hopen := ((h.afterName.skipWhile Text.isMarkupSpace).skip 1).skipWhile Text.isMarkupSpace
  unfold attributeAt
  simp only
  split
  · refine ⟨⟨hname, ?_⟩, ?_⟩
    · rintro value ⟨⟩
      exact span_in_valueAt hopen
    · intro p hp
      simp only at hp
      split at hp
      · rw [List.mem_singleton.mp hp]
        exact hopen.span_in (in_valueAt hopen) (length_rest_valueAt_le _)
      · cases hp
  · exact ⟨⟨hname, nofun⟩, nofun⟩

theorem in_body (h : c.In cs) :
    (∀ raw ∈ (tagBody c).attributes, raw.In cs) ∧ ∀ p ∈ (tagBody c).problems, p.span.In cs := by
  fun_induction tagBody c with
  | case1 c d hd => exact ⟨List.forall_mem_nil _, List.forall_mem_nil _⟩
  | case2 c d _ hd => exact ⟨List.forall_mem_nil _, List.forall_mem_nil _⟩
  | case3 c d _ hd => exact ⟨List.forall_mem_nil _, List.forall_mem_nil _⟩
  | case4 c d _ hd _ ih => exact ih ((h.skipWhile _).skip 1)
  | case5 c d x xs hx hclose hslash hd a body ih =>
    have hspace : d.In cs := h.skipWhile _
    obtain ⟨hfound, hproblems⟩ := in_attribute hspace
    obtain ⟨hattributes, hlater⟩ := ih (in_attributeAt hspace)
    refine ⟨List.forall_mem_cons.mpr ⟨hfound, hattributes⟩, ?_⟩
    exact List.forall_mem_append.mpr ⟨hproblems, hlater⟩

/-! ## Steps -/

theorem problems_in_rawText (name : String) (h : c.In cs) :
    ∀ p ∈ (rawText name c).problems, p.span.In cs := by
  unfold rawText
  split
  · exact List.forall_mem_nil _
  · intro p hp
    rw [List.mem_singleton.mp hp]
    exact h.span_in h.toEnd (Nat.zero_le _)

theorem attributes_in_rawText (cs : List Char) (name : String) (c : Cursor) :
    ∀ t ∈ (rawText name c).tokens, ∀ raw ∈ t.attributes, raw.In cs := by
  obtain ⟨content, htext⟩ := rawText_tokens name c
  intro t ht
  rw [htext, List.mem_singleton] at ht
  rw [ht]
  exact List.forall_mem_nil _

theorem in_tag (h : c.In cs) :
    (∀ t ∈ (startTag c).tokens, ∀ raw ∈ t.attributes, raw.In cs) ∧
      ∀ p ∈ (startTag c).problems, p.span.In cs := by
  let inner := (c.skip 1).skipWhile isStartTagNameChar
  have hinner : inner.In cs := (h.skip 1).skipWhile _
  have hnext := in_tagBody hinner
  have hlength : (tagBody inner).next.rest.length ≤ c.rest.length := by
    have hskip := c.length_rest_skip 1
    have hname : inner.rest.length ≤ (c.skip 1).rest.length := Cursor.length_rest_skipWhile_le _ _
    have hbody := length_rest_tagBody_le inner
    omega
  obtain ⟨hattributes, hproblems⟩ := in_body hinner
  have hall : ∀ p ∈ (if (tagBody inner).ending = .unclosed then (tagBody inner).problems ++
      [⟨.startTag (lowerName ((c.skip 1).run isStartTagNameChar)), c.spanTo (tagBody inner).next⟩]
      else (tagBody inner).problems), p.span.In cs := by
    split
    · refine List.forall_mem_append.mpr ⟨hproblems, List.forall_mem_singleton.mpr ?_⟩
      exact h.span_in hnext hlength
    · exact hproblems
  unfold startTag
  simp only
  split
  · exact ⟨List.forall_mem_cons.mpr ⟨hattributes, attributes_in_rawText cs _ _⟩,
      List.forall_mem_append.mpr ⟨hall, problems_in_rawText _ hnext⟩⟩
  · exact ⟨List.forall_mem_singleton.mpr hattributes, hall⟩

theorem problem_in_endTag (h : c.In cs) : ∀ p ∈ (endTag c).problems, p.span.In cs := by
  intro p hp
  change p ∈ (if _ then _ else _) at hp
  split at hp
  · rw [List.mem_singleton.mp hp]
    apply h.span_in ((h.skipWhile _).skip 1)
    have hstop := c.length_rest_skipWhile_le (· ≠ '>')
    rw [Cursor.length_rest_skip]
    omega
  · cases hp

theorem problem_in_comment (h : c.In cs) : ∀ p ∈ (comment c).problems, p.span.In cs := by
  unfold comment
  simp only
  split
  · exact List.forall_mem_nil _
  · exact List.forall_mem_singleton.mpr (h.span_in (h.skip 4).toEnd (Nat.zero_le _))

/-- What a step reads lies in the markup. -/
theorem spans_in_step (h : c.In cs) :
    (∀ t ∈ (step c).tokens, ∀ raw ∈ t.attributes, raw.In cs) ∧
      ∀ p ∈ (step c).problems, p.span.In cs := by
  have bare (kind : TokenKind) (span : Span) (hkind : Token.attributes ⟨kind, span⟩ = []) :
      ∀ t ∈ [(⟨kind, span⟩ : Token)], ∀ raw ∈ t.attributes, raw.In cs := by
    intro t ht
    rw [List.mem_singleton.mp ht, hkind]
    exact List.forall_mem_nil _
  unfold step
  split
  · refine ⟨?_, problem_in_comment h⟩
    rw [comment_tokens]
    exact bare _ _ rfl
  · exact ⟨bare _ _ rfl, List.forall_mem_nil _⟩
  · exact ⟨bare _ _ rfl, problem_in_endTag h⟩
  · exact in_tag h
  · exact ⟨bare _ _ rfl, List.forall_mem_nil _⟩

/-! ## All of the markup -/

theorem attributes_in_lex (source : String) :
    ∀ t ∈ (lex source).tokens, ∀ raw ∈ t.attributes, raw.In source.toList :=
  forall_mem_lexed (fun _ h _ => (spans_in_step h).1) (fun _ h _ => in_step h)
    (Cursor.in_start source)

theorem problems_in_lex (source : String) :
    ∀ p ∈ (lex source).problems, p.span.In source.toList :=
  forall_problem_lexed (fun _ h _ => (spans_in_step h).2) (fun _ h _ => in_step h)
    (Cursor.in_start source)

end PageLint.Markup
