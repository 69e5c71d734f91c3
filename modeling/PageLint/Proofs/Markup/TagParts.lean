import PageLint.Proofs.Markup.Shapes

/-!
# Parts of start tags

A start tag is its name, then the names and values of its attributes one after the other, and
between these parts only white space and the signs that part them. So nothing of a tag is lost,
and nothing is read twice.
-/

namespace PageLint.Markup

/-! ## Parts with filler between them -/

/-- What may stand between the parts of a start tag. -/
def isFiller (c : Char) : Bool :=
  Text.isMarkupSpace c || c = '<' || c = '>' || c = '/' || c = '=' || c = '"' || c = '\''

/-- Every character of the markup `cs` from byte `k` up to byte `stop` is filler. -/
structure Fills (cs : List Char) (k stop : Nat) : Prop where
  le : k ≤ stop
  filler {j : Nat} {x : Char} (hx : Text.StandsAt cs j [x]) (hle : k ≤ j) (hlt : j < stop) :
    isFiller x = true

/-- From byte `k` up to byte `stop` of the markup `cs` there are parts at some spans, one after
the other, and between them only filler. -/
def Spaced (cs : List Char) (k : Nat) : List Span → Nat → Prop
  | [], stop => Fills cs k stop
  | s :: ss, stop => Fills cs k s.start ∧ s.start ≤ s.stop ∧ Spaced cs s.stop ss stop

theorem Span.Cuts.mem {cs w post : List Char} {span : Span} (h : span.Cuts cs w post) {k : Nat}
    {x : Char} (hx : Text.StandsAt cs k [x]) (hle : span.start ≤ k) (hlt : k < span.stop) :
    x ∈ w := by
  obtain ⟨pre, hcs, hpre, hstop⟩ := h
  obtain ⟨before, after, hcs', hbefore⟩ := hx
  rw [List.append_assoc] at hcs'
  rcases List.append_eq_append_iff.mp (hcs.symm.trans hcs') with ⟨mid, rfl, hmid⟩ | ⟨mid, rfl, hmid⟩
  · rw [Text.byteLength_append] at hbefore
    rcases List.append_eq_append_iff.mp hmid with ⟨tail, rfl, -⟩ | ⟨tail, hw, htail⟩
    · rw [Text.byteLength_append] at hbefore
      omega
    · cases tail with
      | nil =>
        rw [List.append_nil] at hw
        rw [hw] at hstop
        omega
      | cons y tail =>
        cases htail
        rw [hw]
        exact List.mem_append.mpr (Or.inr List.mem_cons_self)
  · -- the character starts no earlier than the slice, so nothing is between the two
    rw [Text.byteLength_append] at hpre
    have hlength := Text.length_le_byteLength mid
    have hnil : mid = [] := List.eq_nil_of_length_eq_zero (by omega)
    subst hnil
    cases w with
    | nil =>
      rw [Text.byteLength_nil] at hstop
      omega
    | cons y w =>
      cases hmid
      exact List.mem_cons_self

namespace Fills

variable {cs : List Char} {k mid stop : Nat}

theorem refl (cs : List Char) (k : Nat) : Fills cs k k :=
  ⟨Nat.le_refl k, fun _ hle hlt => absurd hle (Nat.not_le.mpr hlt)⟩

theorem trans (h : Fills cs k mid) (h' : Fills cs mid stop) : Fills cs k stop := by
  refine ⟨Nat.le_trans h.le h'.le, ?_⟩
  intro j x hx hle hlt
  rcases Nat.lt_or_ge j mid with hmid | hmid
  · exact h.filler hx hle hmid
  · exact h'.filler hx hmid hlt

theorem of_past {c d : Cursor} {gap : List Char} (h : c.Past gap d) (hc : c.In cs)
    (hgap : ∀ x ∈ gap, isFiller x = true) : Fills cs c.offset d.offset :=
  ⟨h.offset ▸ Nat.le_add_right _ _,
    fun hx hle hlt => hgap _ ((h.cuts hc).mem hx hle hlt)⟩

end Fills

namespace Spaced

variable {cs : List Char} {k mid stop : Nat} {ss ss' : List Span}

theorem fill (h : Fills cs k mid) (h' : Spaced cs mid ss stop) : Spaced cs k ss stop := by
  cases ss with
  | nil => exact h.trans h'
  | cons s ss => exact ⟨h.trans h'.1, h'.2⟩

theorem append (h : Spaced cs k ss mid) (h' : Spaced cs mid ss' stop) :
    Spaced cs k (ss ++ ss') stop := by
  induction ss generalizing k with
  | nil => exact fill h h'
  | cons s ss ih => exact ⟨h.1, h.2.1, ih h.2.2⟩

theorem le (h : Spaced cs k ss stop) : k ≤ stop := by
  induction ss generalizing k with
  | nil => exact Fills.le h
  | cons s ss ih => exact Nat.le_trans h.1.le (Nat.le_trans h.2.1 (ih h.2.2))

theorem bounds (h : Spaced cs k ss stop) :
    ∀ s ∈ ss, k ≤ s.start ∧ s.start ≤ s.stop ∧ s.stop ≤ stop := by
  induction ss generalizing k with
  | nil => exact List.forall_mem_nil _
  | cons s ss ih =>
    obtain ⟨hgap, hle, h⟩ := h
    refine List.forall_mem_cons.mpr ⟨⟨hgap.le, hle, h.le⟩, ?_⟩
    intro s' hs'
    obtain ⟨hstart, hs'⟩ := ih h s' hs'
    exact ⟨Nat.le_trans hgap.le (Nat.le_trans hle hstart), hs'⟩

theorem pairwise (h : Spaced cs k ss stop) : ss.Pairwise fun s s' => s.stop ≤ s'.start := by
  induction ss generalizing k with
  | nil => exact .nil
  | cons s ss ih => exact .cons (fun s' hs' => (h.2.2.bounds s' hs').1) (ih h.2.2)

theorem filler (h : Spaced cs k ss stop) {j : Nat} {x : Char} (hx : Text.StandsAt cs j [x])
    (hle : k ≤ j) (hlt : j < stop) (hout : ∀ s ∈ ss, ¬ (s.start ≤ j ∧ j < s.stop)) :
    isFiller x = true := by
  induction ss generalizing k with
  | nil => exact Fills.filler h hx hle hlt
  | cons s ss ih =>
    obtain ⟨hnot, hout⟩ := List.forall_mem_cons.mp hout
    rcases Nat.lt_or_ge j s.start with hbefore | hstart
    · exact h.1.filler hx hle hbefore
    · exact ih h.2.2 (Nat.not_lt.mp fun hstop => hnot ⟨hstart, hstop⟩) hout

end Spaced

/-! ## How attributes are written -/

/-- Right before a cursor that others were passed for stands the last of them. -/
theorem Cursor.Past.exists_last {c d : Cursor} {w : List Char} (h : c.Past w d) (hw : w ≠ [])
    {cs : List Char} (hc : c.In cs) :
    ∃ (e : Cursor) (x : Char), x ∈ w ∧ e.In cs ∧ e.Past [x] d := by
  rcases List.eq_nil_or_concat w with rfl | ⟨init, x, rfl⟩
  · exact absurd rfl hw
  · rw [List.concat_eq_append] at h ⊢
    have hrest : c.rest = init ++ (x :: d.rest) := by
      rw [h.rest, List.append_assoc]
      rfl
    refine ⟨_, x, List.mem_append.mpr (Or.inr (List.mem_singleton_self x)), hc.past hrest, rfl, ?_⟩
    rw [h.offset, Text.byteLength_append, Nat.add_assoc]

/-- The spans of the name of the attribute and of its value. -/
def RawAttribute.parts (raw : RawAttribute) : List Span :=
  raw.nameSpan :: (raw.value.map (·.span)).toList

/-- The value is what stands at its span. If a quote stands before it, it goes up to the next such
quote or to the end of the markup, and otherwise up to white space or the end of the tag. -/
def RawValue.WrittenIn (cs : List Char) (value : RawValue) : Prop :=
  ∃ k opening w post, Span.Cuts cs ⟨k, value.span.start⟩ [opening] (w ++ post) ∧
    value.span.Cuts cs w post ∧ value.text = String.ofList w ∧
    if opening = '"' ∨ opening = '\'' then opening ∉ w ∧ ∀ x ∈ post.head?, x = opening
    else IsRun isUnquotedChar w post

/-- The name of the attribute is what stands at its span, in lower case, or an `=` stands there for
an empty name. -/
structure RawAttribute.WrittenIn (cs : List Char) (raw : RawAttribute) : Prop where
  name : ∃ w post, raw.nameSpan.Cuts cs w post ∧
    (w ≠ [] ∧ raw.name = lowerName w ∧ IsRun isAttributeNameChar w post ∨ w = ['='] ∧ raw.name = "")
  value : ∀ value, raw.value = some value → value.WrittenIn cs

/-- What is read at the opening of a value: the value, with only filler around it. -/
structure ValueStep.Reads (cs : List Char) (c : Cursor) (v : ValueStep) : Prop where
  before : Fills cs c.offset v.value.span.start
  le : v.value.span.start ≤ v.value.span.stop
  after : Fills cs v.value.span.stop v.next.offset

theorem isFiller_of_isMarkupSpace {x : Char} (h : Text.isMarkupSpace x = true) :
    isFiller x = true := by
  simp [isFiller, h]

theorem past_afterName_cons {c : Cursor} {x : Char} {rest : List Char} (hrest : c.rest = x :: rest)
    (hspace : Text.isMarkupSpace x = false) (hclose : x ≠ '>') (hslash : x ≠ '/') :
    ∃ w, c.Past w (afterName c) ∧
      (w ≠ [] ∧ lowerName (c.run isAttributeNameChar) = lowerName w ∧
          IsRun isAttributeNameChar w (afterName c).rest ∨
        w = ['='] ∧ lowerName (c.run isAttributeNameChar) = "") := by
  unfold afterName
  split
  · next hrun =>
    -- the character is none of the others that end a name
    have hequals : x = '=' := by
      by_contra hequals
      rw [Cursor.run, hrest, List.takeWhile_cons_of_pos
        (by simp [isAttributeNameChar, hspace, hclose, hslash, hequals])] at hrun
      cases hrun
    subst hequals
    refine ⟨['='], Cursor.past_skip_length (w := ['=']) hrest, Or.inr ⟨rfl, ?_⟩⟩
    rw [hrun]
    rfl
  · next hrun =>
    exact ⟨_, c.past_skipWhile _, Or.inl ⟨hrun, rfl, c.isRun isAttributeNameChar⟩⟩

section

variable {cs : List Char} {c : Cursor} (h : c.In cs)

include h

theorem fills_skipSpace : Fills cs c.offset c.skipSpace.offset :=
  Fills.of_past (c.past_skipWhile _) h
    fun x hx => isFiller_of_isMarkupSpace ((c.isRun Text.isMarkupSpace).all x hx)

theorem fills_skip_one {x : Char} {rest : List Char} (hrest : c.rest = x :: rest)
    (hx : isFiller x = true) : Fills cs c.offset (c.skip 1).offset :=
  Fills.of_past (Cursor.past_skip_length (w := [x]) hrest) h (List.forall_mem_singleton.mpr hx)

theorem quotedValue_reads {quote : Char} {rest : List Char} (hrest : c.rest = quote :: rest)
    (hquote : quote = '"' ∨ quote = '\'') :
    (quotedValue quote c).Reads cs c ∧ (quotedValue quote c).value.WrittenIn cs := by
  have hfiller : isFiller quote = true := by
    rcases hquote with rfl | rfl
    · decide
    · decide
  have hopening : c.Past [quote] (c.skip 1) := Cursor.past_skip_length hrest
  have hvalue := (c.skip 1).past_skipWhile (· ≠ quote)
  have hrun := (c.skip 1).isRun (· ≠ quote)
  have hinner := h.skip 1
  have hstop : ∀ x ∈ ((c.skip 1).skipWhile (· ≠ quote)).rest.head?, x = quote := by
    intro x hx
    simpa using hrun.stop x hx
  refine ⟨⟨fills_skip_one h hrest hfiller, ?_, ?_⟩, ?_⟩
  · change (c.skip 1).offset ≤ ((c.skip 1).skipWhile (· ≠ quote)).offset
    rw [hvalue.offset]
    exact Nat.le_add_right _ _
  · refine Fills.of_past (Cursor.past_skip _ 1) (hinner.skipWhile _) ?_
    intro x hx
    rw [List.take_one, Option.mem_toList] at hx
    rwa [hstop x hx]
  · refine ⟨c.offset, quote, _, _, ?_, hvalue.cuts hinner, rfl, ?_⟩
    · rw [← hvalue.rest]
      exact hopening.cuts h
    · rw [if_pos hquote]
      exact ⟨fun hmem => absurd (hrun.all _ hmem) (by simp), hstop⟩

theorem unquotedValue_reads {d : Cursor} {x : Char} (hd : d.In cs) (hx : d.Past [x] c)
    (hopening : x = '=' ∨ Text.isMarkupSpace x = true) :
    (unquotedValue c).Reads cs c ∧ (unquotedValue c).value.WrittenIn cs := by
  have hvalue := c.past_skipWhile isUnquotedChar
  refine ⟨⟨Fills.refl _ _, ?_, Fills.refl _ _⟩, ?_⟩
  · change c.offset ≤ (c.skipWhile isUnquotedChar).offset
    rw [hvalue.offset]
    exact Nat.le_add_right _ _
  · refine ⟨d.offset, x, _, _, ?_, hvalue.cuts h, rfl, ?_⟩
    · rw [← hvalue.rest]
      exact hx.cuts hd
    · have hnot : ¬ (x = '"' ∨ x = '\'') := by
        rintro (rfl | rfl)
        · exact absurd hopening (by decide)
        · exact absurd hopening (by decide)
      rw [if_neg hnot]
      exact c.isRun isUnquotedChar

theorem valueAt_reads {d : Cursor} {x : Char} (hd : d.In cs) (hx : d.Past [x] c)
    (hopening : x = '=' ∨ Text.isMarkupSpace x = true) :
    (valueAt c).Reads cs c ∧ (valueAt c).value.WrittenIn cs := by
  unfold valueAt
  split
  · next hhead =>
    obtain ⟨rest, hrest⟩ := List.head?_eq_some_iff.mp hhead
    exact quotedValue_reads h hrest (Or.inl rfl)
  · next hhead =>
    obtain ⟨rest, hrest⟩ := List.head?_eq_some_iff.mp hhead
    exact quotedValue_reads h hrest (Or.inr rfl)
  · exact unquotedValue_reads h hd hx hopening

theorem attributeAt_reads {x : Char} {rest : List Char} (hrest : c.rest = x :: rest)
    (hspace : Text.isMarkupSpace x = false) (hclose : x ≠ '>') (hslash : x ≠ '/') :
    Spaced cs c.offset (attributeAt c).found.parts (attributeAt c).next.offset ∧
      (attributeAt c).found.WrittenIn cs := by
  obtain ⟨w, hpast, hname⟩ := past_afterName_cons hrest hspace hclose hslash
  have hafter : (afterName c).In cs := h.afterName
  have hle : c.offset ≤ (afterName c).offset := by
    rw [hpast.offset]
    exact Nat.le_add_right _ _
  have hwritten : ∃ w post, (c.spanTo (afterName c)).Cuts cs w post ∧
      (w ≠ [] ∧ lowerName (c.run isAttributeNameChar) = lowerName w ∧
          IsRun isAttributeNameChar w post ∨
        w = ['='] ∧ lowerName (c.run isAttributeNameChar) = "") :=
    ⟨w, _, hpast.cuts h, hname⟩
  unfold attributeAt
  simp only
  split
  · next hhead =>
    let equals := (afterName c).skipSpace
    let opening := (equals.skip 1).skipSpace
    obtain ⟨tail, htail⟩ := List.head?_eq_some_iff.mp hhead
    have hequals : equals.In cs := hafter.skipWhile _
    have hopening : opening.In cs := (hequals.skip 1).skipWhile _
    have hsigns : equals.Past ('=' :: (equals.skip 1).run Text.isMarkupSpace) opening :=
      (Cursor.past_skip_length (w := ['=']) htail).trans ((equals.skip 1).past_skipWhile _)
    obtain ⟨d, y, hy, hd, hlast⟩ := hsigns.exists_last (List.cons_ne_nil _ _) hequals
    have hsign : y = '=' ∨ Text.isMarkupSpace y = true :=
      (List.mem_cons.mp hy).imp_right ((equals.skip 1).isRun Text.isMarkupSpace |>.all y)
    obtain ⟨hreads, hvalue⟩ := valueAt_reads hopening hd hlast hsign
    have hgap := ((fills_skipSpace hafter).trans (fills_skip_one hequals htail (by decide))).trans
      (fills_skipSpace (hequals.skip 1))
    refine ⟨⟨Fills.refl _ _, hle, hgap.trans hreads.before, hreads.le, hreads.after⟩, hwritten, ?_⟩
    rintro value ⟨⟩
    exact hvalue
  · exact ⟨⟨Fills.refl _ _, hle, Fills.refl _ _⟩, hwritten, nofun⟩

/-- The body of a start tag is the parts of its attributes, with filler between them. -/
theorem tagBody_reads :
    Spaced cs c.offset ((tagBody c).attributes.flatMap (·.parts)) (tagBody c).next.offset ∧
      ∀ raw ∈ (tagBody c).attributes, raw.WrittenIn cs := by
  fun_induction tagBody c with
  | case1 c d hd => exact ⟨fills_skipSpace h, List.forall_mem_nil _⟩
  | case2 c d rest hd =>
    have hclose := fills_skip_one (h.skipWhile _) hd (by decide)
    exact ⟨(fills_skipSpace h).trans hclose, List.forall_mem_nil _⟩
  | case3 c d rest hd =>
    have hclose : Fills cs d.offset (d.skip 2).offset :=
      Fills.of_past (Cursor.past_skip_length (w := ['/', '>']) hd) (h.skipWhile _)
        (List.all_eq_true.mp (by decide))
    exact ⟨(fills_skipSpace h).trans hclose, List.forall_mem_nil _⟩
  | case4 c d rest hrest hd ih =>
    have hd' : d.In cs := h.skipWhile _
    obtain ⟨hspaced, hwritten⟩ := ih (hd'.skip 1)
    have hslash := fills_skip_one hd' hd (by decide)
    exact ⟨hspaced.fill ((fills_skipSpace h).trans hslash), hwritten⟩
  | case5 c d x xs hx hclose hslash hd a body ih =>
    have hd' : d.In cs := h.skipWhile _
    have hspace := (c.isRun Text.isMarkupSpace).stop x (by
      change x ∈ d.rest.head?
      rw [hd]
      rfl)
    obtain ⟨hfirst, hfound⟩ := attributeAt_reads hd' hd hspace hx hslash
    obtain ⟨hspaced, hwritten⟩ := ih (in_attributeAt hd')
    refine ⟨Spaced.fill (fills_skipSpace h) ?_, List.forall_mem_cons.mpr ⟨hfound, hwritten⟩⟩
    rw [List.flatMap_cons]
    exact hfirst.append hspaced

end

/-! ## Start tags -/

/-- A start tag is its name and the parts of its attributes, in order and with filler between
them. -/
structure IsParted (cs : List Char) (tag nameSpan : Span) (name : String)
    (attributes : List RawAttribute) : Prop where
  name : ∃ run post, nameSpan.Cuts cs run post ∧ IsTagNameRun isStartTagNameChar name run post
  start : nameSpan.start = tag.start + 1
  written : ∀ raw ∈ attributes, raw.WrittenIn cs
  within : ∀ s ∈ nameSpan :: attributes.flatMap (·.parts),
    tag.start ≤ s.start ∧ s.start ≤ s.stop ∧ s.stop ≤ tag.stop
  ordered : (nameSpan :: attributes.flatMap (·.parts)).Pairwise fun s s' => s.stop ≤ s'.start
  /-- Every character of the tag that is in none of the parts is filler. -/
  filler {k : Nat} {x : Char} (hx : Text.StandsAt cs k [x]) (hle : tag.start ≤ k)
    (hlt : k < tag.stop) (hout : ∀ s ∈ nameSpan :: attributes.flatMap (·.parts),
      ¬ (s.start ≤ k ∧ k < s.stop)) : isFiller x = true

theorem IsParted.of_spaced {cs : List Char} {tag nameSpan : Span} {name : String}
    {attributes : List RawAttribute}
    (hname : ∃ run post, nameSpan.Cuts cs run post ∧ IsTagNameRun isStartTagNameChar name run post)
    (hstart : nameSpan.start = tag.start + 1) (hwritten : ∀ raw ∈ attributes, raw.WrittenIn cs)
    (h : Spaced cs tag.start (nameSpan :: attributes.flatMap (·.parts)) tag.stop) :
    IsParted cs tag nameSpan name attributes :=
  ⟨hname, hstart, hwritten, h.bounds, h.pairwise, h.filler⟩

section

variable {cs : List Char} {c : Cursor} (h : c.In cs) {name : String}
  {attributes : List RawAttribute} {selfClosing : Bool} {tag : Span}

include h

theorem exists_isParted_startTag (hopening : Opening.of c.rest = .startTag)
    (ht : ⟨.startTag name attributes selfClosing, tag⟩ ∈ (startTag c).tokens) :
    ∃ nameSpan, IsParted cs tag nameSpan name attributes := by
  obtain ⟨x, rest, hx, hrest⟩ := Opening.exists_of_startTag hopening
  let inner := c.skip 1
  let after := inner.skipWhile isStartTagNameChar
  have hinner : inner.In cs := h.skip 1
  have hname := inner.past_skipWhile isStartTagNameChar
  have hbody := tagBody_reads (hinner.skipWhile isStartTagNameChar)
  have hrun : inner.rest = x :: rest := by
    change (c.skip 1).rest = x :: rest
    rw [Cursor.skip, hrest]
    rfl
  have hle : inner.offset ≤ after.offset := by
    rw [hname.offset]
    exact Nat.le_add_right _ _
  have hparted : IsParted cs (c.spanTo (tagBody after).next) (inner.spanTo after)
      (lowerName (inner.run isStartTagNameChar)) (tagBody after).attributes := by
    refine .of_spaced ⟨_, _, hname.cuts hinner, ?_⟩ ?_ hbody.2 ?_
    · exact isTagNameRun isStartTagNameChar_of_isAlpha hrun hx (List.append_nil _).symm
    · exact (Cursor.past_skip_length (w := ['<']) hrest).offset
    · exact ⟨fills_skip_one h hrest (by decide), hle, hbody.1⟩
  unfold startTag at ht
  simp only at ht
  split at ht
  · obtain ⟨content, htext⟩ := rawText_tokens
      (lowerName (inner.run isStartTagNameChar)) (tagBody after).next
    rw [htext] at ht
    rcases List.mem_cons.mp ht with ht | ht
    · cases ht
      exact ⟨_, hparted⟩
    · cases List.mem_singleton.mp ht
  · cases List.mem_singleton.mp ht
    exact ⟨_, hparted⟩

theorem exists_isParted_step
    (ht : ⟨.startTag name attributes selfClosing, tag⟩ ∈ (step c).tokens) :
    ∃ nameSpan, IsParted cs tag nameSpan name attributes := by
  unfold step at ht
  split at ht
  · rw [comment_tokens] at ht
    cases List.mem_singleton.mp ht
  · cases List.mem_singleton.mp ht
  · cases List.mem_singleton.mp ht
  · next hopening => exact exists_isParted_startTag h hopening ht
  · cases List.mem_singleton.mp ht

end

/-- Nothing of a start tag is lost and nothing is read twice: it is its name and its attributes,
with white space and the signs of a tag between them. -/
theorem exists_isParted_lex (source : String) {name : String} {attributes : List RawAttribute}
    {selfClosing : Bool} {tag : Span}
    (ht : ⟨.startTag name attributes selfClosing, tag⟩ ∈ (lex source).tokens) :
    ∃ nameSpan, IsParted source.toList tag nameSpan name attributes := by
  obtain ⟨n, ht⟩ := List.mem_iff_getElem?.mp ht
  obtain ⟨d, -, k, -, hd, -, hk, -⟩ := exists_step (Cursor.in_start source) ht
  exact exists_isParted_step hd (List.mem_of_getElem? hk)

/-- A tag with a lone slash, a quoted `>`, an attribute without a name, and a quote in a value. -/
def oddTag : String := "<P a=b/ /C\n='>' == x=\"é>"

def oddAttributes : List RawAttribute :=
  [⟨"a", ⟨3, 4⟩, some ⟨"b/", ⟨5, 7⟩⟩⟩, ⟨"c", ⟨9, 10⟩, some ⟨">", ⟨13, 14⟩⟩⟩,
    ⟨"", ⟨16, 17⟩, some ⟨"x=\"é", ⟨19, 24⟩⟩⟩]

theorem exists_isParted_oddTag :
    ⟨.startTag "p" oddAttributes false, ⟨0, 25⟩⟩ ∈ (lex oddTag).tokens ∧
      ∃ nameSpan, IsParted oddTag.toList ⟨0, 25⟩ nameSpan "p" oddAttributes := by
  have htokens : (lex oddTag).tokens = [⟨.startTag "p" oddAttributes false, ⟨0, 25⟩⟩] := by
    decide +kernel
  have ht := htokens.symm ▸ List.mem_singleton_self _
  exact ⟨ht, exists_isParted_lex oddTag ht⟩

end PageLint.Markup
