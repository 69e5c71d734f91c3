import Mathlib.Data.List.Infix
import PageLint.Proofs.Markup.RawBody
import PageLint.Proofs.Markup.Reading

/-!
# Shapes of tokens

The slice of every token has the shape of its kind: it begins with the signs of the kind, its
name is all that can be one, and it ends with the first sign that closes it. A token that nothing
closes runs to the end of the markup and is reported, if it is no declaration.
-/

namespace PageLint.Markup

/-! ## Shapes -/

/-- `mark` stands at the end of `w` and nowhere before. -/
def ClosedBy (mark w : List Char) : Prop :=
  mark <:+ w ∧ ∀ before after, w = before ++ (mark ++ after) → after = []

/-- Something at the span is reported under a code. -/
def Reported (problems : List Problem) (code : String) (span : Span) : Prop :=
  ∃ p ∈ problems, p.defect.code = code ∧ p.span = span

/-- The first `mark` closes `w`, or `w` has none and is open at the end of the markup, as `post`
after it is empty. -/
def ClosedOr (mark w post : List Char) (reported : Prop) : Prop :=
  ClosedBy mark w ∨ ¬ mark <:+: w ∧ post = [] ∧ reported

/-- A letter and all name characters behind it, up to `more`, are the name of a tag. -/
structure IsTagNameRun (p : Char → Bool) (name : String) (run more : List Char) : Prop where
  letter : ∃ x ∈ run.head?, x.isAlpha = true
  isRun : IsRun p run more
  name_eq : name = lowerName run

/-- The shape of the slice `w` of a token with `post` after it. -/
def TokenKind.Shaped (problems : List Problem) (span : Span) (w post : List Char) :
    TokenKind → Prop
  | .comment => ∃ inner, w = '<' :: '!' :: '-' :: '-' :: inner ∧
    ClosedOr ['-', '-', '>'] inner post (Reported problems "unterminated-comment" span)
  | .declaration => (∃ mark rest, (mark = '!' ∨ mark = '?') ∧ w = '<' :: mark :: rest) ∧
    (∀ rest, w ≠ '<' :: '!' :: '-' :: '-' :: rest) ∧ ClosedOr ['>'] w post True
  | .endTag name => ∃ run more, w = '<' :: '/' :: (run ++ more) ∧
    IsTagNameRun isEndTagNameChar name run more ∧
    ClosedOr ['>'] w post (Reported problems "unterminated-tag" span)
  | .startTag name _ selfClosing => ∃ run more, w = '<' :: (run ++ more) ∧
    IsTagNameRun isStartTagNameChar name run more ∧
    (selfClosing = true → ['/', '>'] <:+ more) ∧
    (['>'] <:+ more ∨ post = [] ∧ Reported problems "unterminated-tag" span)
  | .text content => content = String.ofList w

/-- The slice of the token has the shape of its kind. -/
def Token.Shaped (cs : List Char) (problems : List Problem) (t : Token) : Prop :=
  ∃ w post, t.span.Cuts cs w post ∧ t.kind.Shaped problems t.span w post

/-- Every token that was read from the markup `cs` has the shape of its kind. -/
structure Lexed.Shaped (cs : List Char) (read : Lexed) : Prop where
  tokens : ∀ t ∈ read.tokens, t.Shaped cs read.problems
  /-- Behind a start tag that opens raw text is the text up to the first end tag of its name. -/
  rawText {n : Nat} {name : String} {attributes : List RawAttribute} {tag : Span}
    (ht : read.tokens[n]? = some ⟨.startTag name attributes false, tag⟩)
    (hraw : isRawTextElement name = true) :
      ∃ content span w post, read.tokens[n + 1]? = some ⟨.text content, span⟩ ∧
        span.Cuts cs w post ∧
        (∀ before after, w = before ++ after → after ≠ [] → ¬ EndsRawText name (after ++ post)) ∧
        (EndsRawText name post ∨
          post = [] ∧ Reported read.problems "unterminated-raw-text" span)
  /-- All other text is a character and what comes before the next `<`, and opens nothing else. -/
  text {n : Nat} {content : String} {span : Span}
    (ht : read.tokens[n]? = some ⟨.text content, span⟩) :
      (∃ m tag, n = m + 1 ∧ read.tokens[m]? = some tag ∧ tag.kind.opensRawText = true) ∨
      ∃ x w post, span.Cuts cs (x :: w) post ∧ '<' ∉ w ∧ (∀ y ∈ post.head?, y = '<') ∧
        Opening.of (x :: w ++ post) = .text

/-! ## Signs that close -/

theorem closedBy_of_suffixIndex? {mark cs : List Char} {k : Nat}
    (h : Text.suffixIndex? mark.isPrefixOf cs = some k) :
    ClosedBy mark (cs.take (k + mark.length)) := by
  obtain ⟨hk, hmark, hfirst⟩ := Text.suffixIndex?_eq_some_iff.mp h
  obtain ⟨post, hpost⟩ := List.isPrefixOf_iff_prefix.mp hmark
  have htake : cs.take (k + mark.length) = cs.take k ++ mark := by
    rw [List.take_add, ← hpost, List.take_left]
  rw [htake]
  refine ⟨List.suffix_append _ _, ?_⟩
  intro before after hbefore
  -- an occurrence of the mark is not before the first one, so nothing comes after it
  have hge : k ≤ before.length := by
    by_contra hlt
    have hmiss := hfirst before.length (Nat.lt_of_not_le hlt)
    rw [← List.take_append_drop k cs, ← hpost, ← List.append_assoc, hbefore, List.append_assoc,
      List.drop_left, List.append_assoc, Bool.eq_false_iff, Ne,
      List.isPrefixOf_iff_prefix] at hmiss
    exact hmiss (List.prefix_append _ _)
  have hlength := congrArg List.length hbefore
  rw [List.length_append, List.length_append, List.length_append, List.length_take,
    Nat.min_eq_left hk] at hlength
  exact List.eq_nil_of_length_eq_zero (by omega)

theorem not_infix_of_suffixIndex? {mark cs : List Char}
    (h : Text.suffixIndex? mark.isPrefixOf cs = none) : ¬ mark <:+: cs := by
  rintro ⟨before, after, rfl⟩
  have hmiss := Text.suffixIndex?_eq_none h before.length (by simp)
  rw [List.append_assoc, List.drop_left, Bool.eq_false_iff, Ne, List.isPrefixOf_iff_prefix] at hmiss
  exact hmiss (List.prefix_append _ _)

theorem closedBy_concat {x : Char} {w : List Char} (h : x ∉ w) : ClosedBy [x] (w ++ [x]) := by
  refine ⟨List.suffix_append _ _, ?_⟩
  intro before after hw
  rcases List.eq_nil_or_concat after with rfl | ⟨init, y, rfl⟩
  · rfl
  · rw [List.concat_eq_append, ← List.append_assoc, ← List.append_assoc] at hw
    obtain ⟨rfl, -⟩ := List.append_inj' hw rfl
    exact absurd (by simp) h

/-- Reading up to the end of a tag goes past its first `>`, or to the end of the markup. -/
theorem past_close {c d : Cursor} {v : List Char} (h : c.Past v d) (hv : '>' ∉ v) {reported : Prop}
    (hreported : (c.skipWhile (· ≠ '>')).rest = [] → reported) :
    let next := (c.skipWhile (· ≠ '>')).skip 1
    ∃ w, d.Past w next ∧ ClosedOr ['>'] (v ++ w) next.rest reported := by
  have hskip : c.skipWhile (· ≠ '>') = d.skipWhile (· ≠ '>') :=
    h.skipWhile_eq (Text.all_ne_of_not_mem hv)
  rw [hskip] at hreported ⊢
  have hrun := d.isRun (· ≠ '>')
  have hopen : '>' ∉ v ++ d.run (· ≠ '>') := by
    rw [List.mem_append]
    exact not_or_intro hv fun h => absurd (hrun.all _ h) (by decide)
  refine ⟨_, (d.past_skipWhile _).trans (Cursor.past_skip _ 1), ?_⟩
  cases hrest : (d.skipWhile (· ≠ '>')).rest with
  | nil =>
    rw [List.take_nil, List.append_nil]
    refine Or.inr ⟨?_, ?_, hreported hrest⟩
    · rwa [List.singleton_infix_iff]
    · rw [Cursor.skip, hrest, List.drop_nil]
  | cons x rest =>
    have hx := hrun.stop x (by rw [hrest]; rfl)
    rw [decide_eq_false_iff_not, not_not] at hx
    rw [hx, ← List.append_assoc]
    exact Or.inl (closedBy_concat hopen)

theorem TagEnd.Ends.closes {ending : TagEnd} {w post : List Char} (h : ending.Ends w post)
    {reported : Prop} (hreported : ending = .unclosed → reported) :
    (ending = .selfClosed → ['/', '>'] <:+ w) ∧ (['>'] <:+ w ∨ post = [] ∧ reported) := by
  cases ending with
  | closed => exact ⟨nofun, Or.inl h⟩
  | selfClosed =>
    exact ⟨fun _ => h, Or.inl (List.IsSuffix.trans (List.suffix_append ['/'] ['>']) h)⟩
  | unclosed => exact ⟨nofun, Or.inr ⟨h, hreported rfl⟩⟩

/-! ## Names of tags -/

theorem isStartTagNameChar_of_isAlpha {x : Char} (h : x.isAlpha = true) :
    isStartTagNameChar x = true := by
  have hne (d : Char) (hd : d.isAlpha = false) : x ≠ d := by
    rintro rfl
    rw [hd] at h
    cases h
  simp [isStartTagNameChar, Text.isMarkupSpace, hne]

theorem isEndTagNameChar_of_isStartTagNameChar {x : Char} (h : isStartTagNameChar x = true) :
    isEndTagNameChar x = true :=
  (Bool.and_eq_true_iff.mp h).1

theorem isTagNameRun {p : Char → Bool} (hp : ∀ {x}, x.isAlpha = true → p x = true) {c : Cursor}
    {x : Char} {rest : List Char} (hrest : c.rest = x :: rest) (hx : x.isAlpha = true)
    {more post : List Char} (hmore : (c.skipWhile p).rest = more ++ post) :
    IsTagNameRun p (lowerName (c.run p)) (c.run p) more := by
  have hrun := c.isRun p
  refine ⟨⟨x, ?_, hx⟩, ⟨hrun.all, ?_⟩, rfl⟩
  · rw [Cursor.run, hrest, List.takeWhile_cons_of_pos (hp hx)]
    rfl
  · intro y hy
    apply hrun.stop y
    rw [hmore, List.head?_append, hy]
    rfl

/-! ## Steps -/

section

variable {cs : List Char} {c : Cursor} (h : c.In cs)

include h

theorem shaped_comment (hopening : Opening.of c.rest = .comment) :
    ∀ t ∈ (comment c).tokens, t.Shaped cs (comment c).problems := by
  obtain ⟨tail, htail⟩ := Opening.exists_of_comment hopening
  have hmark : c.Past ['<', '!', '-', '-'] (c.skip 4) := Cursor.past_skip_length htail
  unfold comment
  simp only
  split
  · next k hk =>
    have hpast := hmark.trans ((c.skip 4).past_skip (k + 3))
    rw [List.forall_mem_singleton]
    exact ⟨_, _, hpast.cuts h, _, rfl, Or.inl (closedBy_of_suffixIndex? hk)⟩
  · next hnone =>
    have hpast := hmark.trans (c.skip 4).past_toEnd
    rw [List.forall_mem_singleton]
    refine ⟨_, _, hpast.cuts h, _, rfl, Or.inr ⟨not_infix_of_suffixIndex? hnone, rfl, ?_⟩⟩
    exact ⟨_, List.mem_singleton_self _, rfl, rfl⟩

theorem shaped_declaration (hopening : Opening.of c.rest = .declaration) :
    ∀ t ∈ (declaration c).tokens, t.Shaped cs (declaration c).problems := by
  obtain ⟨⟨mark, rest, hmark, hrest⟩, hcomment⟩ := Opening.exists_of_declaration hopening
  have hopen : '>' ∉ ['<', mark] := by
    rcases hmark with rfl | rfl
    · decide
    · decide
  have hpast : c.Past ['<', mark] (c.skip 2) := Cursor.past_skip_length hrest
  obtain ⟨w, hw, hclosed⟩ := past_close hpast hopen fun _ => trivial
  have hall := hpast.trans hw
  refine List.forall_mem_singleton.mpr ⟨_, _, hall.cuts h, ⟨mark, w, hmark, rfl⟩, ?_, hclosed⟩
  intro tail htail
  apply hcomment
  rw [hall.rest, htail]
  rfl

theorem shaped_endTag (hopening : Opening.of c.rest = .endTag) :
    ∀ t ∈ (endTag c).tokens, t.Shaped cs (endTag c).problems := by
  obtain ⟨x, rest, hx, hrest⟩ := Opening.exists_of_endTag hopening
  have hmark : c.Past ['<', '/'] (c.skip 2) := Cursor.past_skip_length hrest
  have hname : (c.skip 2).rest = x :: rest := by
    rw [Cursor.skip, hrest]
    rfl
  have hpast := hmark.trans ((c.skip 2).past_skipWhile isEndTagNameChar)
  have hopen : '>' ∉ ['<', '/'] ++ (c.skip 2).run isEndTagNameChar := by
    rw [List.mem_append]
    exact not_or_intro (by decide)
      fun h => absurd (((c.skip 2).isRun isEndTagNameChar).all _ h) (by decide)
  have hreported : (c.skipWhile (· ≠ '>')).rest = [] →
      Reported (endTag c).problems "unterminated-tag"
        (c.spanTo ((c.skipWhile (· ≠ '>')).skip 1)) := by
    intro hnil
    refine ⟨⟨.endTag (lowerName ((c.skip 2).run isEndTagNameChar)), _⟩, ?_, rfl, rfl⟩
    rw [endTag, hnil]
    exact List.mem_singleton_self _
  obtain ⟨more, hmore, hclosed⟩ := past_close hpast hopen hreported
  have hall := hpast.trans hmore
  rw [List.append_assoc] at hall hclosed
  refine List.forall_mem_singleton.mpr ⟨_, _, hall.cuts h, _, more, rfl, ?_, hclosed⟩
  exact isTagNameRun
    (fun hx => isEndTagNameChar_of_isStartTagNameChar (isStartTagNameChar_of_isAlpha hx))
    hname hx hmore.rest

theorem shaped_rawText (problems : List Problem) (name : String) :
    ∀ t ∈ (rawText name c).tokens, t.Shaped cs problems := by
  unfold rawText
  split
  · next k _ =>
    exact List.forall_mem_singleton.mpr ⟨_, _, (c.past_skip k).cuts h, rfl⟩
  · exact List.forall_mem_singleton.mpr ⟨_, _, c.past_toEnd.cuts h, rfl⟩

theorem shaped_startTag (hopening : Opening.of c.rest = .startTag) :
    ∀ t ∈ (startTag c).tokens, t.Shaped cs (startTag c).problems := by
  obtain ⟨x, rest, hx, hrest⟩ := Opening.exists_of_startTag hopening
  let inner := c.skip 1
  let after := inner.skipWhile isStartTagNameChar
  have hmark : c.Past ['<'] inner := Cursor.past_skip_length hrest
  have hname : inner.rest = x :: rest := by
    change (c.skip 1).rest = x :: rest
    rw [Cursor.skip, hrest]
    rfl
  obtain ⟨more, hmore, hends⟩ := past_tagBody after
  have hall := (hmark.trans (inner.past_skipWhile isStartTagNameChar)).trans hmore
  rw [List.append_assoc] at hall
  have hnamed := isTagNameRun isStartTagNameChar_of_isAlpha hname hx hmore.rest
  have hbody : (tagBody after).next.In cs := in_tagBody ((h.skip 1).skipWhile _)
  let name := lowerName (inner.run isStartTagNameChar)
  let span := c.spanTo (tagBody after).next
  have htag {problems : List Problem} (hproblems : (tagBody after).ending = .unclosed →
      (⟨.startTag name, span⟩ : Problem) ∈ problems) : Token.Shaped cs problems
        ⟨.startTag name (tagBody after).attributes ((tagBody after).ending = .selfClosed), span⟩ := by
    obtain ⟨hself, hclose⟩ := hends.closes fun hending =>
      (⟨_, hproblems hending, rfl, rfl⟩ : Reported problems "unterminated-tag" span)
    exact ⟨_, _, hall.cuts h, _, more, rfl, hnamed, fun hself' => hself (of_decide_eq_true hself'),
      hclose⟩
  have hreported (hending : (tagBody after).ending = .unclosed) :
      (⟨.startTag name, span⟩ : Problem) ∈ (if (tagBody after).ending = .unclosed then
        (tagBody after).problems ++ [⟨.startTag name, span⟩] else (tagBody after).problems) := by
    rw [if_pos hending]
    exact List.mem_append.mpr (Or.inr (List.mem_singleton_self _))
  unfold startTag
  simp only
  split
  · refine List.forall_mem_cons.mpr ⟨htag fun hending => ?_, shaped_rawText hbody _ _⟩
    exact List.mem_append.mpr (Or.inl (hreported hending))
  · exact List.forall_mem_singleton.mpr (htag hreported)

theorem shaped_text (hc : c.rest ≠ []) (hopening : Opening.of c.rest = .text) :
    ∃ x w, (text c).tokens = [⟨.text (String.ofList (x :: w)), c.spanTo (text c).next⟩] ∧
      (c.spanTo (text c).next).Cuts cs (x :: w) (text c).next.rest ∧ '<' ∉ w ∧
      (∀ y ∈ (text c).next.rest.head?, y = '<') ∧
      Opening.of (x :: w ++ (text c).next.rest) = .text := by
  obtain ⟨x, rest, hrest⟩ := List.exists_cons_of_ne_nil hc
  have hrun := (c.skip 1).isRun (· ≠ '<')
  have hpast := (Cursor.past_skip_length (w := [x]) hrest).trans
    ((c.skip 1).past_skipWhile (· ≠ '<'))
  refine ⟨x, (c.skip 1).run (· ≠ '<'), ?_, hpast.cuts h, ?_, ?_, ?_⟩
  · rw [text, hrest]
    rfl
  · exact fun h => absurd (hrun.all _ h) (by decide)
  · intro y hy
    simpa using hrun.stop y hy
  · have hall : c.rest = x :: (c.skip 1).run (· ≠ '<') ++ (text c).next.rest := hpast.rest
    rw [← hall, hopening]

theorem shaped_step (hc : c.rest ≠ []) : ∀ t ∈ (step c).tokens, t.Shaped cs (step c).problems := by
  unfold step
  split
  · next hopening => exact shaped_comment h hopening
  · next hopening => exact shaped_declaration h hopening
  · next hopening => exact shaped_endTag h hopening
  · next hopening => exact shaped_startTag h hopening
  · next hopening =>
    obtain ⟨x, w, htokens, hcuts, -⟩ := shaped_text h hc hopening
    rw [htokens]
    exact List.forall_mem_singleton.mpr ⟨_, _, hcuts, rfl⟩

theorem reported_rawText {name content : String} {span : Span}
    (htokens : (rawText name c).tokens = [⟨.text content, span⟩])
    (hstop : span.stop = Text.byteLength cs) :
    ⟨.rawText name, span⟩ ∈ (rawText name c).problems := by
  unfold rawText at htokens ⊢
  split at htokens
  · next k hk =>
    cases htokens
    have hend := (h.skip k).offset_add
    have hlength := Text.length_le_byteLength (c.skip k).rest
    have hnil : (c.skip k).rest = [] := List.eq_nil_of_length_eq_zero (by
      change (c.skip k).offset = _ at hstop
      omega)
    have hends := (Text.suffixIndex?_eq_some_iff.mp hk).2.1
    rw [show c.rest.drop k = [] from hnil] at hends
    cases hends
  · cases htokens
    exact List.mem_singleton_self _

end

theorem opening_of_tokens {c : Cursor} {content : String} {span : Span}
    (h : (step c).tokens = [⟨.text content, span⟩]) : Opening.of c.rest = .text := by
  unfold step at h
  split at h
  · rw [comment_tokens] at h
    cases h
  · cases h
  · cases h
  · unfold startTag at h
    simp only at h
    split at h
    · cases h
    · cases h
  · assumption

/-! ## All of the markup -/

theorem Reported.mono {problems problems' : List Problem} (h : ∀ p ∈ problems, p ∈ problems')
    {code : String} {span : Span} : Reported problems code span → Reported problems' code span := by
  rintro ⟨p, hp, hreported⟩
  exact ⟨p, h p hp, hreported⟩

theorem ClosedOr.imp {mark w post : List Char} {r r' : Prop} (h : r → r') :
    ClosedOr mark w post r → ClosedOr mark w post r' :=
  Or.imp_right fun ⟨hopen, hpost, hr⟩ => ⟨hopen, hpost, h hr⟩

theorem Token.Shaped.mono {cs : List Char} {problems problems' : List Problem} {t : Token}
    (ht : t.Shaped cs problems) (h : ∀ p ∈ problems, p ∈ problems') : t.Shaped cs problems' := by
  obtain ⟨w, post, hcuts, hshaped⟩ := ht
  refine ⟨w, post, hcuts, ?_⟩
  obtain ⟨kind, span⟩ := t
  cases kind with
  | comment =>
    obtain ⟨inner, hw, hclosed⟩ := hshaped
    exact ⟨inner, hw, hclosed.imp (Reported.mono h)⟩
  | declaration => exact hshaped
  | endTag name =>
    obtain ⟨run, more, hw, hname, hclosed⟩ := hshaped
    exact ⟨run, more, hw, hname, hclosed.imp (Reported.mono h)⟩
  | startTag name attributes selfClosing =>
    obtain ⟨run, more, hw, hname, hself, hclosed⟩ := hshaped
    exact ⟨run, more, hw, hname, hself, hclosed.imp_right (And.imp_right (Reported.mono h))⟩
  | text content => exact hshaped

section

variable {cs : List Char} {c : Cursor} (h : c.In cs) {n : Nat}

include h

theorem rawText_lexed {name : String} {attributes : List RawAttribute} {tag : Span}
    (ht : (lexed c).tokens[n]? = some ⟨.startTag name attributes false, tag⟩)
    (hraw : isRawTextElement name = true) :
    ∃ content span w post, (lexed c).tokens[n + 1]? = some ⟨.text content, span⟩ ∧
      span.Cuts cs w post ∧
      (∀ before after, w = before ++ after → after ≠ [] → ¬ EndsRawText name (after ++ post)) ∧
      (EndsRawText name post ∨
        post = [] ∧ Reported (lexed c).problems "unterminated-raw-text" span) := by
  obtain ⟨d, b, k, rfl, hd, -, hk, hdrop, hproblems⟩ := exists_step h ht
  have hopens : (TokenKind.startTag name attributes false).opensRawText = true := hraw
  obtain ⟨rfl, name', body, hbody, hreads⟩ := readsRaw_step hd hopens hk
  obtain ⟨_, htag⟩ := hreads.tag
  cases htag
  obtain ⟨w, ⟨pre, post, hcs, hpre, hends, hfirst⟩, htokens⟩ := isRawBody_rawText hbody name
  rw [hreads.tokens, htokens] at hdrop
  refine ⟨String.ofList w, ⟨body.offset, body.offset + Text.byteLength w⟩, w, post, ?_,
    ⟨pre, hcs, hpre, rfl⟩, hfirst, ?_⟩
  · rw [Nat.add_zero, ← List.getElem?_drop, hdrop]
    rfl
  · rcases hends with rfl | hends
    · refine Or.inr ⟨rfl, _, hproblems _ (hreads.problems _ (reported_rawText hbody htokens ?_)),
        rfl, rfl⟩
      rw [hcs, List.append_nil, Text.byteLength_append, hpre]
    · exact Or.inl hends

theorem text_lexed {content : String} {span : Span}
    (ht : (lexed c).tokens[n]? = some ⟨.text content, span⟩) :
    (∃ m tag, n = m + 1 ∧ (lexed c).tokens[m]? = some tag ∧ tag.kind.opensRawText = true) ∨
    ∃ x w post, span.Cuts cs (x :: w) post ∧ '<' ∉ w ∧ (∀ y ∈ post.head?, y = '<') ∧
      Opening.of (x :: w ++ post) = .text := by
  obtain ⟨d, b, k, rfl, hd, hne, hk, hdrop, -⟩ := exists_step h ht
  rcases step_tokens hd hne with ⟨kind, -, htokens⟩ |
    ⟨name, attributes, _, body, hraw, -, -, -, -, htokens⟩
  · rw [htokens] at hk
    cases k with
    | zero =>
      cases hk
      have hopening := opening_of_tokens htokens
      obtain ⟨x, w, htokens', hcuts, hshape⟩ := shaped_text hd hne hopening
      have hstep : step d = text d := by rw [step, hopening]
      rw [hstep]
      exact Or.inr ⟨x, w, _, hcuts, hshape⟩
    | succ k => cases hk
  · rw [htokens] at hk hdrop
    rcases k with - | - | k
    · cases hk
    · refine Or.inl ⟨b, ⟨.startTag name attributes false, d.spanTo body⟩, rfl, ?_, hraw⟩
      rw [← Nat.add_zero b, ← List.getElem?_drop, hdrop]
      rfl
    · cases hk

end

/-- The tokens of all markup have the shapes of their kinds. -/
theorem shaped_lex (source : String) : (lex source).Shaped source.toList where
  tokens := by
    intro t ht
    obtain ⟨n, ht⟩ := List.mem_iff_getElem?.mp ht
    obtain ⟨d, -, k, -, hd, hne, hk, -, hproblems⟩ := exists_step (Cursor.in_start source) ht
    exact (shaped_step hd hne t (List.mem_of_getElem? hk)).mono hproblems
  rawText := rawText_lexed (Cursor.in_start source)
  text := text_lexed (Cursor.in_start source)

end PageLint.Markup
