import PageLint.Proofs.Markup.Tiling

/-!
# What is read at a cursor

Reading goes from a cursor to one behind some characters, and what is read is the slice of the
markup between the two. Every token is read by a step, together with at most one other.
-/

namespace PageLint.Markup

/-- The characters `w` stand at the span in the markup `cs`, and `post` comes after them. -/
def Span.Cuts (cs : List Char) (span : Span) (w post : List Char) : Prop :=
  ∃ pre, cs = pre ++ (w ++ post) ∧ Text.byteLength pre = span.start ∧
    span.stop = span.start + Text.byteLength w

/-- The characters `run` are all that satisfy `p` up to `more`. -/
structure IsRun (p : Char → Bool) (run more : List Char) : Prop where
  all : ∀ x ∈ run, p x = true
  stop : ∀ x ∈ more.head?, p x = false

namespace Cursor

/-- The second cursor is right behind the characters `w` at the first one. -/
structure Past (c : Cursor) (w : List Char) (d : Cursor) : Prop where
  rest : c.rest = w ++ d.rest
  offset : d.offset = c.offset + Text.byteLength w

variable {c d e : Cursor} {v w : List Char}

theorem past_skip (c : Cursor) (n : Nat) : c.Past (c.rest.take n) (c.skip n) :=
  ⟨(List.take_append_drop n c.rest).symm, rfl⟩

theorem past_skip_length (h : c.rest = w ++ v) : c.Past w (c.skip w.length) := by
  have hpast := c.past_skip w.length
  rwa [h, List.take_left] at hpast

theorem past_skipWhile (c : Cursor) (p : Char → Bool) : c.Past (c.run p) (c.skipWhile p) :=
  ⟨List.takeWhile_append_dropWhile.symm, rfl⟩

theorem past_toEnd (c : Cursor) : c.Past c.rest c.toEnd := ⟨(List.append_nil _).symm, rfl⟩

theorem isRun (c : Cursor) (p : Char → Bool) : IsRun p (c.run p) (c.skipWhile p).rest := by
  refine ⟨fun x => List.mem_takeWhile_imp, ?_⟩
  intro x hx
  have hhead := List.head?_dropWhile_not p c.rest
  rw [show (c.rest.dropWhile p).head? = some x from hx] at hhead
  exact hhead

namespace Past

theorem trans (h : c.Past v d) (h' : d.Past w e) : c.Past (v ++ w) e := by
  constructor
  · rw [h.rest, h'.rest, List.append_assoc]
  · rw [h'.offset, h.offset, Text.byteLength_append, Nat.add_assoc]

/-- The characters between two cursors in the markup are the slice at the span between them. -/
theorem cuts (h : c.Past w d) {cs : List Char} (hc : c.In cs) : (c.spanTo d).Cuts cs w d.rest := by
  obtain ⟨pre, hpre, hoffset⟩ := hc
  exact ⟨pre, h.rest ▸ hpre, hoffset, h.offset⟩

theorem skipWhile_eq (h : c.Past w d) {p : Char → Bool} (all : ∀ x ∈ w, p x = true) :
    c.skipWhile p = d.skipWhile p := by
  unfold skipWhile
  rw [h.rest, List.takeWhile_append_of_pos all, List.dropWhile_append_of_pos all, h.offset,
    Text.byteLength_append, Nat.add_assoc]

end Past

end Cursor

/-! ## Bodies of start tags -/

theorem past_valueAt (c : Cursor) : ∃ w, c.Past w (valueAt c).next := by
  have quoted (q : Char) : ∃ w, c.Past w (quotedValue q c).next :=
    ⟨_, ((c.past_skip 1).trans (Cursor.past_skipWhile _ _)).trans (Cursor.past_skip _ 1)⟩
  unfold valueAt
  split
  · exact quoted '"'
  · exact quoted '\''
  · exact ⟨_, c.past_skipWhile _⟩

theorem past_afterName (c : Cursor) : ∃ w, c.Past w (afterName c) := by
  unfold afterName
  split
  · exact ⟨_, c.past_skip 1⟩
  · exact ⟨_, c.past_skipWhile _⟩

theorem past_attributeAt (c : Cursor) : ∃ w, c.Past w (attributeAt c).next := by
  obtain ⟨name, hname⟩ := past_afterName c
  unfold attributeAt
  simp only
  split
  · obtain ⟨value, hvalue⟩ := past_valueAt ((afterName c).skipSpace.skip 1).skipSpace
    have hspace := hname.trans (Cursor.past_skipWhile _ Text.isMarkupSpace)
    have hopen := (hspace.trans (Cursor.past_skip _ 1)).trans
      (Cursor.past_skipWhile _ Text.isMarkupSpace)
    exact ⟨_, hopen.trans hvalue⟩
  · exact ⟨name, hname⟩

/-- How the characters `w` of a tag end if `post` comes after it. -/
def TagEnd.Ends (w post : List Char) : TagEnd → Prop
  | .closed => ['>'] <:+ w
  | .selfClosed => ['/', '>'] <:+ w
  | .unclosed => post = []

theorem TagEnd.Ends.append {ending : TagEnd} {w post : List Char} (h : ending.Ends w post)
    (v : List Char) : ending.Ends (v ++ w) post := by
  cases ending with
  | closed => exact List.IsSuffix.trans h (List.suffix_append v w)
  | selfClosed => exact List.IsSuffix.trans h (List.suffix_append v w)
  | unclosed => exact h

/-- What is read as the body of a start tag ends as the tag does. -/
theorem past_tagBody (c : Cursor) :
    ∃ w, c.Past w (tagBody c).next ∧ (tagBody c).ending.Ends w (tagBody c).next.rest := by
  fun_induction tagBody c with
  | case1 c d hd => exact ⟨_, c.past_skipWhile _, hd⟩
  | case2 c d rest hd =>
    refine ⟨_, (c.past_skipWhile _).trans (d.past_skip 1), ?_⟩
    rw [hd]
    exact List.suffix_append _ _
  | case3 c d rest hd =>
    refine ⟨_, (c.past_skipWhile _).trans (d.past_skip 2), ?_⟩
    rw [hd]
    exact List.suffix_append _ _
  | case4 c d rest hrest hd ih =>
    obtain ⟨w, hw, hends⟩ := ih
    exact ⟨_, ((c.past_skipWhile _).trans (d.past_skip 1)).trans hw, hends.append _⟩
  | case5 c d x xs hx hclose hslash hd a body ih =>
    obtain ⟨v, hv⟩ := past_attributeAt d
    obtain ⟨w, hw, hends⟩ := ih
    exact ⟨_, ((c.past_skipWhile _).trans hv).trans hw, hends.append _⟩

/-! ## Steps -/

/-- The step that reads a token: the tokens from the first of its step on are those of the step,
then those that are read behind it. -/
theorem exists_step {cs : List Char} {c : Cursor} (h : c.In cs) {n : Nat} {t : Token}
    (ht : (lexed c).tokens[n]? = some t) :
    ∃ d b k, n = b + k ∧ d.In cs ∧ d.rest ≠ [] ∧ (step d).tokens[k]? = some t ∧
      (lexed c).tokens.drop b = (step d).tokens ++ (lexed (step d).next).tokens ∧
      ∀ p ∈ (step d).problems, p ∈ (lexed c).problems := by
  induction c using Cursor.stepwise generalizing n with
  | done c hc =>
    rw [lexed_of_rest_nil hc] at ht
    cases ht
  | more c hc ih =>
    rw [lexed_of_rest_ne_nil hc] at ht ⊢
    rcases Nat.lt_or_ge n (step c).tokens.length with hlt | hge
    · rw [List.getElem?_append_left hlt] at ht
      exact ⟨c, 0, n, (Nat.zero_add n).symm, h, hc, ht, rfl,
        fun p hp => List.mem_append.mpr (Or.inl hp)⟩
    · rw [List.getElem?_append_right hge] at ht
      obtain ⟨d, b, k, hn, hd, hne, hk, hdrop, hproblems⟩ := ih (in_step h) ht
      refine ⟨d, (step c).tokens.length + b, k, by omega, hd, hne, hk, ?_, ?_⟩
      · rw [← hdrop, List.drop_length_add_append]
      · exact fun p hp => List.mem_append.mpr (Or.inr (hproblems p hp))

/-- What a step reads at a start tag that opens raw text: the tag, then the text behind it. -/
structure ReadsRaw (c : Cursor) (name : String) (t : Token) (body : Cursor) (s : Step) : Prop where
  raw : isRawTextElement name = true
  tag : ∃ attributes, t = ⟨.startTag name attributes false, c.spanTo body⟩
  tokens : s.tokens = t :: (rawText name body).tokens
  problems : ∀ p ∈ (rawText name body).problems, p ∈ s.problems
  next : s.next = (rawText name body).next

section

variable {cs : List Char} {c : Cursor} (h : c.In cs) {k : Nat} {t : Token}
  (hopens : t.kind.opensRawText = true)

include hopens

theorem not_opensRawText_single {kind : TokenKind} {span : Span}
    (hkind : kind.opensRawText = false) : ¬ [(⟨kind, span⟩ : Token)][k]? = some t := by
  intro ht
  cases k with
  | zero =>
    cases ht
    rw [hkind] at hopens
    cases hopens
  | succ k => cases ht

include h

theorem readsRaw_startTag (ht : (startTag c).tokens[k]? = some t) :
    k = 0 ∧ ∃ name body, body.In cs ∧ ReadsRaw c name t body (startTag c) := by
  let inner := (c.skip 1).skipWhile isStartTagNameChar
  have hbody : (tagBody inner).next.In cs := in_tagBody ((h.skip 1).skipWhile _)
  unfold startTag at ht ⊢
  simp only [ne_eq, decide_not] at ht ⊢
  split at ht
  · next hraw =>
    rw [if_pos hraw]
    obtain ⟨hending, hraw⟩ := Bool.and_eq_true_iff.mp hraw
    rw [Bool.not_eq_true'] at hending
    cases k with
    | zero =>
      cases ht
      refine ⟨rfl, _, _, hbody, hraw, ⟨(tagBody inner).attributes, ?_⟩, rfl, ?_, rfl⟩
      · rw [hending]
      · exact fun p hp => List.mem_append.mpr (Or.inr hp)
    | succ k =>
      rw [List.getElem?_cons_succ] at ht
      obtain ⟨content, htext⟩ := rawText_tokens _ _
      rw [htext] at ht
      exact absurd ht (not_opensRawText_single hopens rfl)
  · next hraw => exact absurd ht (not_opensRawText_single hopens (Bool.eq_false_iff.mpr hraw))

/-- A start tag that opens raw text comes first in its step, and the text behind it second. -/
theorem readsRaw_step (ht : (step c).tokens[k]? = some t) :
    k = 0 ∧ ∃ name body, body.In cs ∧ ReadsRaw c name t body (step c) := by
  unfold step at ht ⊢
  split at ht
  · rw [comment_tokens] at ht
    exact absurd ht (not_opensRawText_single hopens rfl)
  · exact absurd ht (not_opensRawText_single hopens rfl)
  · exact absurd ht (not_opensRawText_single hopens rfl)
  · exact readsRaw_startTag h hopens ht
  · exact absurd ht (not_opensRawText_single hopens rfl)

end

end PageLint.Markup
