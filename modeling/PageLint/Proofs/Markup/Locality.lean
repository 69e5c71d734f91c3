import PageLint.Proofs.Markup.Moving
import PageLint.Proofs.Markup.TokenStream

/-!
# Lexing is local

What a step reads is settled by the characters that it reads, as soon as what it looks for is
among them: more markup behind does not change it. So markup that is complete is read in the
same way whatever follows, and what follows is read as it is alone.
-/

namespace PageLint.Markup

/-- The same place, with more markup behind all that is ahead. -/
def Cursor.followedBy (more : List Char) (c : Cursor) : Cursor := ⟨c.offset, c.rest ++ more⟩

def ValueStep.followedBy (more : List Char) (v : ValueStep) : ValueStep :=
  { v with next := v.next.followedBy more }

def AttributeStep.followedBy (more : List Char) (a : AttributeStep) : AttributeStep :=
  { a with next := a.next.followedBy more }

def TagBody.followedBy (more : List Char) (body : TagBody) : TagBody :=
  { body with next := body.next.followedBy more }

def Step.followedBy (more : List Char) (s : Step) : Step :=
  { s with next := s.next.followedBy more }

variable {c : Cursor} (more : List Char)

/-! ## Cursors -/

namespace Cursor

theorem skip_followedBy {k : Nat} (h : k ≤ c.rest.length) :
    (c.followedBy more).skip k = (c.skip k).followedBy more := by
  simp [skip, followedBy, List.take_append_of_le_length h, List.drop_append_of_le_length h]

section

variable {p : Char → Bool} (h : (c.skipWhile p).rest ≠ [])
include h

theorem rest_ne_nil_of_skipWhile : c.rest ≠ [] := by
  intro hnil
  rw [skipWhile, hnil] at h
  exact h rfl

theorem run_followedBy : (c.followedBy more).run p = c.run p := by
  have hshort : (c.rest.takeWhile p).length ≠ c.rest.length := by
    intro hlength
    apply h
    have hall := List.takeWhile_eq_self_iff.mp ((List.takeWhile_prefix p).eq_of_length hlength)
    exact List.dropWhile_eq_nil_iff.mpr hall
  exact List.takeWhile_append.trans (if_neg hshort)

theorem skipWhile_followedBy :
    (c.followedBy more).skipWhile p = (c.skipWhile p).followedBy more := by
  have hrun := run_followedBy more h
  have hrest : (c.rest ++ more).dropWhile p = c.rest.dropWhile p ++ more :=
    List.dropWhile_append.trans (if_neg (mt List.isEmpty_iff.mp h))
  rw [run, run] at hrun
  rw [skipWhile, hrun]
  exact congrArg (Cursor.mk _) hrest

end

theorem skipWhile_ne_nil_iff {p : Char → Bool} :
    (c.skipWhile p).rest ≠ [] ↔ ∃ x ∈ c.rest, p x = false := by
  rw [skipWhile, Ne, List.dropWhile_eq_nil_iff]
  simp

theorem skipSpace_followedBy (h : c.skipSpace.rest ≠ []) :
    (c.followedBy more).skipSpace = c.skipSpace.followedBy more :=
  skipWhile_followedBy more h

theorem head?_followedBy (h : c.rest ≠ []) :
    (c.followedBy more).rest.head? = c.rest.head? :=
  List.head?_append_of_ne_nil _ h

theorem isEmpty_followedBy (h : c.rest ≠ []) :
    (c.followedBy more).rest.isEmpty = c.rest.isEmpty := by
  obtain ⟨x, xs, hrest⟩ := List.exists_cons_of_ne_nil h
  rw [followedBy, hrest]
  rfl

theorem rest_ne_nil_of_skip {k : Nat} (h : (c.skip k).rest ≠ []) : k < c.rest.length := by
  have hpos := List.length_pos_iff.mpr h
  rw [length_rest_skip] at hpos
  omega

end Cursor

/-! ## Attributes -/

theorem valueAt_eq (c : Cursor) :
    valueAt c = if c.rest.head? = some '"' then quotedValue '"' c
      else if c.rest.head? = some '\'' then quotedValue '\'' c else unquotedValue c := by
  unfold valueAt
  split <;> simp_all

theorem quotedValue_followedBy {quote : Char} (hc : c.rest ≠ [])
    (closed : (quotedValue quote c).unclosed = false) :
    quotedValue quote (c.followedBy more) = (quotedValue quote c).followedBy more := by
  have hstop : ((c.skip 1).skipWhile (· ≠ quote)).rest ≠ [] := List.isEmpty_eq_false_iff.mp closed
  unfold quotedValue
  simp only
  rw [Cursor.skip_followedBy more (List.length_pos_iff.mpr hc), Cursor.run_followedBy more hstop,
    Cursor.skipWhile_followedBy more hstop,
    Cursor.skip_followedBy more (List.length_pos_iff.mpr hstop),
    Cursor.isEmpty_followedBy more hstop]
  rfl

theorem valueAt_followedBy (closed : (valueAt c).unclosed = false)
    (hrest : (valueAt c).next.rest ≠ []) :
    valueAt (c.followedBy more) = (valueAt c).followedBy more := by
  have hc : c.rest ≠ [] := List.length_pos_iff.mp
    (Nat.lt_of_lt_of_le (List.length_pos_iff.mpr hrest) (length_rest_valueAt_le c))
  rw [valueAt_eq c] at closed hrest
  rw [valueAt_eq (c.followedBy more), Cursor.head?_followedBy more hc, valueAt_eq c]
  by_cases hdouble : c.rest.head? = some '"'
  · rw [if_pos hdouble] at closed
    rw [if_pos hdouble, if_pos hdouble]
    exact quotedValue_followedBy more hc closed
  · rw [if_neg hdouble] at closed hrest
    rw [if_neg hdouble, if_neg hdouble]
    by_cases hsingle : c.rest.head? = some '\''
    · rw [if_pos hsingle] at closed
      rw [if_pos hsingle, if_pos hsingle]
      exact quotedValue_followedBy more hc closed
    · rw [if_neg hsingle] at hrest
      rw [if_neg hsingle, if_neg hsingle, unquotedValue, Cursor.run_followedBy more hrest,
        Cursor.skipWhile_followedBy more hrest]
      rfl

theorem skipWhile_ne_nil_of_afterName (hc : c.rest ≠ []) (hafter : (afterName c).rest ≠ []) :
    (c.skipWhile isAttributeNameChar).rest ≠ [] := by
  unfold afterName at hafter
  split at hafter
  · next hrun =>
    have hself := List.takeWhile_append_dropWhile (p := isAttributeNameChar) (l := c.rest)
    rw [Cursor.run] at hrun
    rw [hrun, List.nil_append] at hself
    rwa [Cursor.skipWhile, hself]
  · exact hafter

theorem afterName_followedBy (hc : c.rest ≠ [])
    (hname : (c.skipWhile isAttributeNameChar).rest ≠ []) :
    afterName (c.followedBy more) = (afterName c).followedBy more := by
  unfold afterName
  rw [Cursor.run_followedBy more hname, Cursor.skipWhile_followedBy more hname,
    Cursor.skip_followedBy more (List.length_pos_iff.mpr hc)]
  split
  · rfl
  · rfl

theorem attributeAt_followedBy (hc : c.rest ≠ []) (clean : (attributeAt c).problems = [])
    (hrest : (attributeAt c).next.skipSpace.rest ≠ []) :
    attributeAt (c.followedBy more) = (attributeAt c).followedBy more := by
  by_cases hequals : (afterName c).skipSpace.rest.head? = some '='
  · unfold attributeAt at clean hrest
    simp only [if_pos hequals] at clean hrest
    have hvalue := Cursor.rest_ne_nil_of_skipWhile hrest
    have closed : (valueAt ((afterName c).skipSpace.skip 1).skipSpace).unclosed = false := by
      split at clean
      · cases clean
      · next hopen => exact Bool.eq_false_iff.mpr hopen
    have hopening : ((afterName c).skipSpace.skip 1).skipSpace.rest ≠ [] :=
      List.length_pos_iff.mp (Nat.lt_of_lt_of_le (List.length_pos_iff.mpr hvalue)
        (length_rest_valueAt_le _))
    have hsign := Cursor.rest_ne_nil_of_skip (Cursor.rest_ne_nil_of_skipWhile hopening)
    have hspace : (afterName c).skipSpace.rest ≠ [] :=
      List.length_pos_iff.mp (Nat.zero_lt_of_lt hsign)
    have hname := skipWhile_ne_nil_of_afterName hc (Cursor.rest_ne_nil_of_skipWhile hspace)
    unfold attributeAt
    simp only [afterName_followedBy more hc hname, Cursor.skipSpace_followedBy more hspace,
      Cursor.head?_followedBy more hspace, if_pos hequals,
      Cursor.skip_followedBy more (Nat.le_of_lt hsign), Cursor.skipSpace_followedBy more hopening,
      valueAt_followedBy more closed hvalue, Cursor.run_followedBy more hname]
    rfl
  · unfold attributeAt at hrest
    simp only [if_neg hequals] at hrest
    have hname := skipWhile_ne_nil_of_afterName hc (Cursor.rest_ne_nil_of_skipWhile hrest)
    unfold attributeAt
    simp only [afterName_followedBy more hc hname, Cursor.skipSpace_followedBy more hrest,
      Cursor.head?_followedBy more hrest, if_neg hequals, Cursor.run_followedBy more hname]
    rfl

/-! ## Tags -/

theorem skipSpace_ne_nil_of_closed (closed : (tagBody c).ending ≠ .unclosed) :
    c.skipSpace.rest ≠ [] := by
  intro hnil
  rw [tagBody_of_nil hnil] at closed
  exact closed rfl

/-- A body that is closed is read in the same way whatever comes after it. -/
theorem tagBody_followedBy (closed : (tagBody c).ending ≠ .unclosed)
    (clean : (tagBody c).problems = []) :
    tagBody (c.followedBy more) = (tagBody c).followedBy more := by
  have space {c : Cursor} {x : Char} {xs : List Char} (h : c.skipSpace.rest = x :: xs) :
      (c.followedBy more).skipSpace = c.skipSpace.followedBy more ∧
        (c.followedBy more).skipSpace.rest = x :: (xs ++ more) := by
    have hspace := Cursor.skipSpace_followedBy more (h ▸ List.cons_ne_nil x xs)
    exact ⟨hspace, hspace ▸ congrArg (· ++ more) h⟩
  fun_induction tagBody c with
  | case1 c d h => exact absurd rfl closed
  | case2 c d rest h =>
    obtain ⟨hspace, hrest⟩ := space h
    have hlength : 1 ≤ c.skipSpace.rest.length := h ▸ Nat.succ_le_succ (Nat.zero_le _)
    rw [tagBody_of_closed hrest, hspace, Cursor.skip_followedBy more hlength]
    rfl
  | case3 c d rest h =>
    obtain ⟨hspace, hrest⟩ := space h
    have hlength : 2 ≤ c.skipSpace.rest.length :=
      h ▸ Nat.succ_le_succ (Nat.succ_le_succ (Nat.zero_le _))
    rw [tagBody_of_selfClosed hrest, hspace, Cursor.skip_followedBy more hlength]
    rfl
  | case4 c d rest hrest h ih =>
    obtain ⟨hspace, hrest'⟩ := space h
    have hlength : 1 ≤ c.skipSpace.rest.length := h ▸ Nat.succ_le_succ (Nat.zero_le _)
    -- A tag that ends with the slash is not closed, so another character follows it.
    have hstop : ∀ tail, rest ++ more ≠ '>' :: tail := by
      intro tail htail
      cases rest with
      | nil =>
        apply skipSpace_ne_nil_of_closed closed
        change (d.rest.drop 1).dropWhile _ = []
        rw [h]
        rfl
      | cons y ys =>
        obtain ⟨rfl, -⟩ := List.cons.inj htail
        exact hrest ys rfl
    rw [tagBody_of_slash hrest' hstop, hspace, Cursor.skip_followedBy more hlength]
    exact ih closed clean
  | case5 c d x xs hx hclose hslash h a body ih =>
    obtain ⟨hspace, hrest⟩ := space h
    obtain ⟨hfound, hlater⟩ := List.append_eq_nil_iff.mp clean
    have hne : d.rest ≠ [] := h ▸ List.cons_ne_nil x xs
    have hattribute := attributeAt_followedBy more hne hfound (skipSpace_ne_nil_of_closed closed)
    rw [tagBody_of_attribute hrest hx hslash, hspace, hattribute]
    change { tagBody (a.next.followedBy more) with
      attributes := a.found :: (tagBody (a.next.followedBy more)).attributes
      problems := a.problems ++ (tagBody (a.next.followedBy more)).problems } = _
    rw [ih closed hlater]
    rfl

/-! ## What is opened -/

namespace Opening

theorem of_mark {rest : List Char} (h : ∀ tail, rest ≠ '-' :: '-' :: tail) :
    Opening.of ('<' :: '!' :: rest) = .declaration := by
  rw [Opening.of]
  exact h

theorem of_sign {x : Char} (hmark : x ≠ '!') (hquestion : x ≠ '?') (hslash : x ≠ '/')
    (rest : List Char) :
    Opening.of ('<' :: x :: rest) = if x.isAlpha then .startTag else .text := by
  simp [Opening.of, hmark, hslash]

theorem of_plain {x : Char} (h : x ≠ '<') (rest : List Char) :
    Opening.of (x :: rest) = .text := by
  simp [Opening.of, h]

theorem not_dashes_append {rest : List Char} (hend : '>' ∈ rest)
    (h : ∀ tail, rest ≠ '-' :: '-' :: tail) (more : List Char) :
    ∀ tail, rest ++ more ≠ '-' :: '-' :: tail := by
  intro tail htail
  match rest with
  | [] => cases hend
  | [x] =>
    obtain ⟨rfl, -⟩ := List.cons.inj htail
    exact absurd hend (by decide)
  | x :: y :: rest =>
    obtain ⟨rfl, hrest⟩ := List.cons.inj htail
    obtain ⟨rfl, -⟩ := List.cons.inj hrest
    exact h rest rfl

/-- A declaration that is closed and text that another token follows are told from all
else by the characters that they have. -/
theorem of_append {cs : List Char} (declaration : Opening.of cs = .declaration → '>' ∈ cs)
    (text : Opening.of cs = .text → '<' ∈ cs.drop 1) (more : List Char) :
    Opening.of (cs ++ more) = Opening.of cs := by
  match cs with
  | [] => exact absurd (text rfl) List.not_mem_nil
  | [x] =>
    have htext : Opening.of [x] = .text := by
      by_cases hx : x = '<'
      · rw [hx]
        rfl
      · exact of_plain hx []
    exact absurd (text htext) List.not_mem_nil
  | x :: y :: rest =>
    by_cases hx : x = '<'
    · subst hx
      by_cases hmark : y = '!'
      · subst hmark
        by_cases hdash : ∃ tail, rest = '-' :: '-' :: tail
        · obtain ⟨tail, rfl⟩ := hdash
          rfl
        · have hrest : ∀ tail, rest ≠ '-' :: '-' :: tail := fun tail htail => hdash ⟨tail, htail⟩
          have hend : '>' ∈ rest := by simpa using declaration (of_mark hrest)
          exact (of_mark (not_dashes_append hend hrest more)).trans (of_mark hrest).symm
      by_cases hquestion : y = '?'
      · rw [hquestion]
        rfl
      by_cases hslash : y = '/'
      · subst hslash
        cases rest with
        | nil => exact absurd (text rfl) (by decide)
        | cons z rest => rfl
      exact (of_sign hmark hquestion hslash _).trans (of_sign hmark hquestion hslash _).symm
    · exact (of_plain hx _).trans (of_plain hx _).symm

end Opening

/-! ## Steps -/

theorem comment_followedBy (hopening : Opening.of c.rest = .comment)
    (clean : (comment c).problems = []) :
    comment (c.followedBy more) = (comment c).followedBy more := by
  obtain ⟨rest, hrest⟩ := Opening.exists_of_comment hopening
  have hfour : 4 ≤ c.rest.length := by
    rw [hrest]
    exact Nat.le_add_left 4 rest.length
  unfold comment at clean ⊢
  simp only at clean ⊢
  cases hk : Text.suffixIndex? ['-', '-', '>'].isPrefixOf (c.skip 4).rest with
  | none =>
    rw [hk] at clean
    cases clean
  | some k =>
    have hfound : Text.suffixIndex? ['-', '-', '>'].isPrefixOf ((c.skip 4).followedBy more).rest =
        some k := Text.suffixIndex?_isPrefixOf_append hk more
    have hlength : k + 3 ≤ (c.skip 4).rest.length := by
      obtain ⟨hle, hprefix, -⟩ := Text.suffixIndex?_eq_some_iff.mp hk
      have hmark := (List.isPrefixOf_iff_prefix.mp hprefix).length_le
      rw [List.length_drop] at hmark
      change 3 ≤ _ at hmark
      omega
    rw [Cursor.skip_followedBy more hfour, hfound]
    simp only
    rw [Cursor.skip_followedBy more hlength]
    rfl

theorem declaration_followedBy (closed : (c.skipWhile (· ≠ '>')).rest ≠ []) :
    declaration (c.followedBy more) = (declaration c).followedBy more := by
  unfold declaration
  rw [Cursor.skipWhile_followedBy more closed,
    Cursor.skip_followedBy more (List.length_pos_iff.mpr closed)]
  rfl

theorem text_followedBy (hrest : (text c).next.rest ≠ []) :
    text (c.followedBy more) = (text c).followedBy more := by
  have hskip := Cursor.rest_ne_nil_of_skip (Cursor.rest_ne_nil_of_skipWhile hrest)
  have htake : (c.followedBy more).rest.take 1 = c.rest.take 1 :=
    List.take_append_of_le_length (Nat.le_of_lt hskip)
  unfold text
  simp only
  rw [htake, Cursor.skip_followedBy more (Nat.le_of_lt hskip), Cursor.run_followedBy more hrest,
    Cursor.skipWhile_followedBy more hrest]
  rfl

theorem endTag_followedBy (hopening : Opening.of c.rest = .endTag)
    (clean : (endTag c).problems = []) :
    endTag (c.followedBy more) = (endTag c).followedBy more := by
  obtain ⟨_, rest, -, hrest⟩ := Opening.exists_of_endTag hopening
  have closed : (c.skipWhile (· ≠ '>')).rest ≠ [] := by
    intro hnil
    unfold endTag at clean
    simp only [hnil, List.isEmpty_nil, if_true] at clean
    cases clean
  have hname : ((c.skip 2).skipWhile isEndTagNameChar).rest ≠ [] := by
    obtain ⟨x, hx, hclose⟩ := Cursor.skipWhile_ne_nil_iff.mp closed
    have hclose : x = '>' := by simpa using hclose
    subst hclose
    refine Cursor.skipWhile_ne_nil_iff.mpr ⟨'>', ?_, rfl⟩
    rw [hrest] at hx
    simpa [Cursor.skip, hrest] using hx
  have htwo : 2 ≤ c.rest.length := by
    rw [hrest]
    exact Nat.le_add_left 2 (rest.length + 1)
  unfold endTag
  simp only
  rw [Cursor.skip_followedBy more htwo, Cursor.run_followedBy more hname,
    Cursor.skipWhile_followedBy more closed,
    Cursor.skip_followedBy more (List.length_pos_iff.mpr closed),
    Cursor.isEmpty_followedBy more closed]
  rfl

theorem rawText_followedBy {name : String} (clean : (rawText name c).problems = []) :
    rawText name (c.followedBy more) = (rawText name c).followedBy more := by
  unfold rawText at clean ⊢
  cases hk : Text.suffixIndex? (Text.startsIgnoringCase ('<' :: '/' :: name.toList)) c.rest with
  | none =>
    rw [hk] at clean
    cases clean
  | some k =>
    have hle := (Text.suffixIndex?_eq_some_iff.mp hk).1
    have hfound : Text.suffixIndex? (Text.startsIgnoringCase ('<' :: '/' :: name.toList))
        (c.followedBy more).rest = some k := Text.suffixIndex?_startsIgnoringCase_append hk more
    have htake : (c.followedBy more).rest.take k = c.rest.take k :=
      List.take_append_of_le_length hle
    rw [hfound]
    simp only
    rw [htake, Cursor.skip_followedBy more hle]
    rfl

theorem startTag_followedBy (hc : c.rest ≠ []) (clean : (startTag c).problems = []) :
    startTag (c.followedBy more) = (startTag c).followedBy more := by
  unfold startTag at clean
  simp only at clean
  have hending : (tagBody ((c.skip 1).skipWhile isStartTagNameChar)).ending ≠ .unclosed := by
    intro hunclosed
    rw [if_pos hunclosed] at clean
    split at clean
    · simp at clean
    · simp at clean
  have hname : ((c.skip 1).skipWhile isStartTagNameChar).rest ≠ [] :=
    Cursor.rest_ne_nil_of_skipWhile (skipSpace_ne_nil_of_closed hending)
  rw [if_neg hending] at clean
  unfold startTag
  simp only
  rw [Cursor.skip_followedBy more (List.length_pos_iff.mpr hc), Cursor.run_followedBy more hname,
    Cursor.skipWhile_followedBy more hname]
  have hbody := tagBody_followedBy more hending
  generalize tagBody ((c.skip 1).skipWhile isStartTagNameChar) = body at *
  generalize lowerName ((c.skip 1).run isStartTagNameChar) = name at *
  have hending' : (body.followedBy more).ending ≠ .unclosed := hending
  split at clean
  · next hraw =>
    have hraw' : ((body.followedBy more).ending ≠ .selfClosed && isRawTextElement name) = true :=
      hraw
    obtain ⟨htag, htext⟩ := List.append_eq_nil_iff.mp clean
    have htext' : rawText name (body.followedBy more).next =
        (rawText name body.next).followedBy more := rawText_followedBy more htext
    rw [hbody htag, if_neg hending, if_neg hending', if_pos hraw, if_pos hraw', htext']
    rfl
  · next hraw =>
    have hraw' : ¬((body.followedBy more).ending ≠ .selfClosed && isRawTextElement name) = true :=
      hraw
    rw [hbody clean, if_neg hending, if_neg hending', if_neg hraw, if_neg hraw']
    rfl

/-- What the step at the cursor reads is complete: there is nothing wrong with it, and it does
not go on to the end of the markup for want of a sign that ends it. -/
structure Cursor.Complete (c : Cursor) : Prop where
  clean : (step c).problems = []
  declaration (h : Opening.of c.rest = .declaration) : (c.skipWhile (· ≠ '>')).rest ≠ []
  text (h : Opening.of c.rest = .text) : (step c).next.rest ≠ []

theorem step_followedBy (hc : c.rest ≠ []) (h : c.Complete) :
    step (c.followedBy more) = (step c).followedBy more := by
  have hopening : Opening.of (c.followedBy more).rest = Opening.of c.rest := by
    apply Opening.of_append
    · intro hdeclaration
      obtain ⟨x, hx, hclose⟩ := Cursor.skipWhile_ne_nil_iff.mp (h.declaration hdeclaration)
      have hclose : x = '>' := by simpa using hclose
      exact hclose ▸ hx
    · intro htext
      have hrest := h.text htext
      have hstep : step c = text c := by rw [step, htext]
      rw [hstep] at hrest
      obtain ⟨x, hx, hopen⟩ := Cursor.skipWhile_ne_nil_iff.mp hrest
      have hopen : x = '<' := by simpa using hopen
      exact hopen ▸ hx
  obtain ⟨clean, declaration, text⟩ := h
  unfold step at clean text ⊢
  rw [hopening]
  generalize hkind : Opening.of c.rest = kind at *
  cases kind with
  | comment => exact comment_followedBy more hkind clean
  | declaration => exact declaration_followedBy more (declaration rfl)
  | endTag => exact endTag_followedBy more hkind clean
  | startTag => exact startTag_followedBy more hc clean
  | text => exact text_followedBy more (text rfl)

/-! ## All steps -/

/-- The token ends with the character `x`. -/
def Token.EndsWith (cs : List Char) (t : Token) (x : Char) : Prop :=
  ∃ k, t.span.start ≤ k ∧ Text.StandsAt cs k [x] ∧ t.span.stop = k + x.utf8Size

/-- The token does not go on into the markup behind it: it is not text, and it is closed if it
is a declaration. -/
def Token.Final (cs : List Char) (t : Token) : Prop :=
  t.kind.isText = false ∧ (t.kind = .declaration → t.EndsWith cs '>')

theorem Cursor.In.mem_rest {cs : List Char} (h : c.In cs) {k : Nat} (hk : c.offset ≤ k) {x : Char}
    (stands : Text.StandsAt cs k [x]) : x ∈ c.rest := by
  obtain ⟨pre, hcs, hoffset⟩ := h
  obtain ⟨before, after, hsplit, rfl⟩ := stands
  rw [hcs, List.append_assoc] at hsplit
  rcases List.append_eq_append_iff.mp hsplit with ⟨mid, -, hrest⟩ | ⟨mid, hpre, hrest⟩
  · rw [hrest]
    exact List.mem_append_right mid List.mem_cons_self
  · have hmid : mid = [] := by
      have hlength := Text.length_le_byteLength mid
      rw [hpre, Text.byteLength_append] at hoffset
      exact List.eq_nil_of_length_eq_zero (by omega)
    rw [hmid, List.nil_append] at hrest
    rw [← hrest]
    exact List.mem_cons_self

/-- If the tokens end with a final one and nothing is wrong, each step is complete. -/
theorem complete_of_final {cs : List Char} (h : c.In cs) (hc : c.rest ≠ [])
    (clean : (lexed c).problems = []) (final : ∀ t ∈ (lexed c).tokens.getLast?, t.Final cs) :
    c.Complete := by
  rw [lexed_of_rest_ne_nil hc] at clean final
  have final' {t : Token} (hnil : (step c).next.rest = []) (ht : (step c).tokens = [t]) :
      t.Final cs := by
    apply final
    rw [lexed_of_rest_nil hnil, ht]
    rfl
  refine ⟨(List.append_eq_nil_iff.mp clean).1, ?_, ?_⟩
  · intro hopening hnil
    have hstep : step c = declaration c := by rw [step, hopening]
    have hrest : (step c).next.rest = [] := by
      rw [hstep]
      exact congrArg (List.drop 1) hnil
    obtain ⟨k, hk, stands, -⟩ := (final' hrest (congrArg Step.tokens hstep)).2 rfl
    exact Cursor.skipWhile_ne_nil_iff.mpr ⟨'>', h.mem_rest hk stands, rfl⟩ hnil
  · intro hopening hnil
    have hstep : step c = text c := by rw [step, hopening]
    have htext := (final' hnil (congrArg Step.tokens hstep)).1
    cases htext

theorem lexed_followedBy {cs : List Char} (h : c.In cs) (clean : (lexed c).problems = [])
    (final : ∀ t ∈ (lexed c).tokens.getLast?, t.Final cs) :
    lexed (c.followedBy more) =
      ⟨(lexed c).tokens ++ (lexed ⟨Text.byteLength cs, more⟩).tokens,
        (lexed ⟨Text.byteLength cs, more⟩).problems⟩ := by
  induction c using Cursor.stepwise with
  | done c hc =>
    have hend := h.offset_add
    rw [hc] at hend
    have hcursor : c.followedBy more = ⟨Text.byteLength cs, more⟩ := by
      rw [Cursor.followedBy, hc, ← hend]
      rfl
    rw [lexed_of_rest_nil hc, hcursor]
    rfl
  | more c hc ih =>
    have hcomplete := complete_of_final h hc clean final
    have hne : (c.followedBy more).rest ≠ [] := List.append_ne_nil_of_left_ne_nil hc more
    rw [lexed_of_rest_ne_nil hc] at clean final
    have hlater := ih (in_step h) (List.append_eq_nil_iff.mp clean).2 fun t ht => by
      apply final
      rw [List.getLast?_append, Option.mem_def.mp ht]
      rfl
    rw [lexed_of_rest_ne_nil hne, step_followedBy more hc hcomplete, lexed_of_rest_ne_nil hc]
    simp only [Step.followedBy]
    rw [hlater, hcomplete.clean, List.append_assoc]
    rfl

/-- Nothing is wrong with the markup, and its last token is final: what comes after it starts
with a token of its own. -/
structure Complete (source : String) : Prop where
  clean : (lex source).problems = []
  final : ∀ t ∈ (lex source).tokens.getLast?, t.Final source.toList

/-- Complete markup is read in the same way whatever follows, and what follows is read as
if it stood alone, further on by the bytes of the markup before it. -/
theorem lex_append {source : String} (h : Complete source) (more : String) :
    lex (source ++ more) =
      ⟨(lex source).tokens ++ ((lex more).moved (Text.byteLength source.toList)).tokens,
        ((lex more).moved (Text.byteLength source.toList)).problems⟩ := by
  have hstart : Cursor.start (source ++ more) = (Cursor.start source).followedBy more.toList := by
    rw [Cursor.start, String.toList_append]
    rfl
  have hmoved : (⟨Text.byteLength source.toList, more.toList⟩ : Cursor) =
      (Cursor.start more).moved (Text.byteLength source.toList) := rfl
  rw [lex_eq_lexed, lex_eq_lexed, lex_eq_lexed, hstart,
    lexed_followedBy more.toList (Cursor.in_start source) h.clean h.final, hmoved, lexed_moved]

theorem lex_append_declaration :
    Complete "<p>é</p><!x>" ∧ lex "<p>é</p><!x><b" =
      ⟨(lex "<p>é</p><!x>").tokens ++ [⟨.startTag "b" [] false, ⟨13, 15⟩⟩],
        [⟨.startTag "b", ⟨13, 15⟩⟩]⟩ := by
  have hlast : (lex "<p>é</p><!x>").tokens.getLast? = some ⟨.declaration, ⟨9, 13⟩⟩ := by
    decide +kernel
  have hcomplete : Complete "<p>é</p><!x>" := by
    refine ⟨by decide +kernel, ?_⟩
    rw [hlast]
    rintro t ⟨⟩
    refine ⟨rfl, fun _ => ⟨12, by decide, ⟨"<p>é</p><!x".toList, [], ?_, ?_⟩, rfl⟩⟩
    · decide +kernel
    · decide +kernel
  have hmore : lex "<b" = ⟨[⟨.startTag "b" [] false, ⟨0, 2⟩⟩], [⟨.startTag "b", ⟨0, 2⟩⟩]⟩ := by
    decide +kernel
  have happend := lex_append hcomplete "<b"
  rw [hmore] at happend
  exact ⟨hcomplete, happend⟩

end PageLint.Markup
