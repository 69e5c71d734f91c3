import PageLint.Proofs.Markup.Forest
import PageLint.Proofs.Markup.Lexing
import PageLint.Proofs.Text.Search
import PageLint.Proofs.Text.Slice

/-!
# Reading printed tags

What the lexer reads at a printed start tag, at the body of a raw text element and at
a printed end tag.
-/

namespace PageLint.Markup

open Text (byteLength)

namespace Cursor

theorem run_append {p : Char → Bool} {taken rest : List Char} (all : ∀ x ∈ taken, p x = true)
    (stop : ∀ x ∈ rest.head?, p x = false) (o : Nat) :
    (⟨o, taken ++ rest⟩ : Cursor).run p = taken := by
  rw [run, List.takeWhile_append_of_pos all]
  cases rest with
  | nil => exact List.append_nil _
  | cons x rest =>
    have hx : ¬ p x = true := by simp [stop x rfl]
    rw [List.takeWhile_cons_of_neg hx, List.append_nil]

theorem skipWhile_append {p : Char → Bool} {taken rest : List Char} (all : ∀ x ∈ taken, p x = true)
    (stop : ∀ x ∈ rest.head?, p x = false) (o : Nat) :
    (⟨o, taken ++ rest⟩ : Cursor).skipWhile p = ⟨o + byteLength taken, rest⟩ := by
  have hrun := run_append all stop o
  rw [run] at hrun
  rw [skipWhile, hrun, List.dropWhile_append_of_pos all]
  cases rest with
  | nil => rfl
  | cons x rest =>
    have hx : ¬ p x = true := by simp [stop x rfl]
    rw [List.dropWhile_cons_of_neg hx]

theorem skipWhile_of_head {p : Char → Bool} {rest : List Char}
    (stop : ∀ x ∈ rest.head?, p x = false) (o : Nat) :
    (⟨o, rest⟩ : Cursor).skipWhile p = ⟨o, rest⟩ :=
  skipWhile_append (fun _ h => absurd h List.not_mem_nil) stop o

theorem skipWhile_cons {p : Char → Bool} {x : Char} (h : p x = true) (rest : List Char) (o : Nat) :
    (⟨o, x :: rest⟩ : Cursor).skipWhile p = (⟨o + x.utf8Size, rest⟩ : Cursor).skipWhile p := by
  rw [skipWhile, skipWhile, List.takeWhile_cons_of_pos h, List.dropWhile_cons_of_pos h,
    Text.byteLength_cons, ← Nat.add_assoc]

theorem skip_one (o : Nat) (x : Char) (rest : List Char) :
    (⟨o, x :: rest⟩ : Cursor).skip 1 = ⟨o + x.utf8Size, rest⟩ := rfl

theorem stops_cons {p : Char → Bool} {x : Char} (h : p x = false) (rest : List Char) :
    ∀ y ∈ (x :: rest).head?, p y = false := by
  rintro y ⟨⟩
  exact h

end Cursor

/-! ## Names -/

theorem ne_of_apply {p : Char → Bool} {c d : Char} (hc : p c = true) (hd : p d = false) :
    c ≠ d := by
  rintro rfl
  rw [hc] at hd
  cases hd

theorem isNameChar_of_isLower {c : Char} (h : c.isLower = true) : IsNameChar c := by
  have hne (d : Char) (hd : d.isLower = false) : c ≠ d := ne_of_apply h hd
  refine ⟨?_, hne '>' (by decide), hne '/' (by decide), ?_⟩
  · simp only [Text.isMarkupSpace, Bool.or_eq_false_iff, decide_eq_false_iff_not]
    exact ⟨⟨⟨⟨hne _ (by decide), hne _ (by decide)⟩, hne _ (by decide)⟩, hne _ (by decide)⟩,
      hne _ (by decide)⟩
  · apply decide_eq_false
    intro hupper
    have hlower := (Bool.and_eq_true_iff.mp h).1
    exact absurd (UInt32.le_trans (of_decide_eq_true hlower) hupper.2) (by decide)

theorem map_toLower_eq {cs : List Char} (h : ∀ c ∈ cs, c.isUpper = false) :
    cs.map Char.toLower = cs :=
  (List.map_congr_left fun c hc => Text.toLower_of_not_isUpper (h c hc)).trans (List.map_id _)

theorem lowerName_eq {name : String} (h : ∀ c ∈ name.toList, c.isUpper = false) :
    lowerName name.toList = name := by
  rw [lowerName, map_toLower_eq h, String.ofList_toList]

/-! ## Attributes -/

namespace IsAttribute

variable {a : String × Option String}

theorem isAttributeNameChar (h : IsAttribute a) :
    ∀ c ∈ a.1.toList, Markup.isAttributeNameChar c = true := by
  intro c hc
  obtain ⟨⟨hspace, hclose, hslash, -⟩, hequals⟩ := h.2.1 c hc
  simp [Markup.isAttributeNameChar, hspace, hclose, hslash, hequals]

theorem lowerName (h : IsAttribute a) : lowerName a.1.toList = a.1 :=
  lowerName_eq fun c hc => (h.2.1 c hc).1.2.2.2

/-- The name has a first character, which opens nothing else. -/
theorem exists_cons (h : IsAttribute a) :
    ∃ c cs, a.1.toList = c :: cs ∧ IsNameChar c ∧ c ≠ '=' := by
  cases hname : a.1.toList with
  | nil => exact absurd (String.toList_eq_nil_iff.mp hname) h.1
  | cons c cs => exact ⟨c, cs, rfl, h.2.1 c (hname ▸ List.mem_cons_self)⟩

end IsAttribute

/-- After the name of a tag or of an attribute there is a blank or the end of the tag,
and no `=` after that. -/
structure EndsName (more : List Char) : Prop where
  head : ∀ x ∈ more.head?, x = ' ' ∨ x = '>'
  equals : (more.dropWhile Text.isMarkupSpace).head? ≠ some '='

theorem endsName_print {attributes : List (String × Option String)}
    (h : ∀ a ∈ attributes, IsAttribute a) (rest : List Char) :
    EndsName (printAttributes attributes ++ '>' :: rest) := by
  cases attributes with
  | nil =>
    constructor
    · rintro x ⟨⟩
      exact Or.inr rfl
    · change ('>' :: rest).head? ≠ _
      simp
  | cons a attributes =>
    obtain ⟨c, cs, hname, ⟨hspace, -⟩, hequals⟩ := (h a List.mem_cons_self).exists_cons
    obtain ⟨tail, htail⟩ : ∃ tail, printAttributes (a :: attributes) ++ '>' :: rest =
        ' ' :: c :: tail := by
      obtain ⟨name, _ | value⟩ := a
      · change name.toList = c :: cs at hname
        simp [printAttributes, printAttribute, hname]
      · change name.toList = c :: cs at hname
        simp [printAttributes, printAttribute, hname]
    rw [htail]
    constructor
    · rintro x ⟨⟩
      exact Or.inl rfl
    · have hdrop : (' ' :: c :: tail).dropWhile Text.isMarkupSpace = c :: tail := by
        rw [List.dropWhile_cons_of_pos (by decide), List.dropWhile_cons_of_neg (by simp [hspace])]
      rw [hdrop]
      simpa using hequals

theorem EndsName.not_isAttributeNameChar {more : List Char} (h : EndsName more) :
    ∀ x ∈ more.head?, isAttributeNameChar x = false := by
  intro x hx
  rcases h.head x hx with rfl | rfl
  · decide
  · decide

theorem IsAttribute.afterName {a : String × Option String} (h : IsAttribute a) {more : List Char}
    (stop : ∀ x ∈ more.head?, Markup.isAttributeNameChar x = false) (o : Nat) :
    Markup.afterName ⟨o, a.1.toList ++ more⟩ = ⟨o + byteLength a.1.toList, more⟩ := by
  have hne : a.1.toList ≠ [] := fun hnil => h.1 (String.toList_eq_nil_iff.mp hnil)
  rw [Markup.afterName, Cursor.run_append h.isAttributeNameChar stop, if_neg hne,
    Cursor.skipWhile_append h.isAttributeNameChar stop]

theorem attributeAt_bare {name : String} (h : IsAttribute (name, none)) {more : List Char}
    (hmore : EndsName more) (o : Nat) :
    attributeAt ⟨o, name.toList ++ more⟩ =
      ⟨⟨name, ⟨o, o + byteLength name.toList⟩, none⟩, [], ⟨o + byteLength name.toList, more⟩⟩ := by
  have hstop := hmore.not_isAttributeNameChar
  rw [attributeAt, h.afterName hstop, Cursor.run_append h.isAttributeNameChar hstop, h.lowerName]
  exact if_neg hmore.equals

theorem valueAt_quoted {value : List Char} (h : '"' ∉ value) (more : List Char) (o : Nat) :
    valueAt ⟨o, '"' :: (value ++ '"' :: more)⟩ =
      ⟨⟨String.ofList value, ⟨o + 1, o + 1 + byteLength value⟩⟩, false,
        ⟨o + 1 + byteLength value + 1, more⟩⟩ := by
  have hall := Text.all_ne_of_not_mem h
  have hstop : ∀ x ∈ ('"' :: more).head?, decide (x ≠ '"') = false :=
    Cursor.stops_cons (by decide) more
  change quotedValue '"' _ = _
  rw [quotedValue, Cursor.skip_one, Cursor.run_append hall hstop,
    Cursor.skipWhile_append hall hstop]
  rfl

theorem skipSpace_cons {x : Char} (h : Text.isMarkupSpace x = false) (rest : List Char) (o : Nat) :
    (⟨o, x :: rest⟩ : Cursor).skipSpace = ⟨o, x :: rest⟩ :=
  Cursor.skipWhile_of_head (Cursor.stops_cons h rest) o

theorem attributeAt_value {name value : String} (h : IsAttribute (name, some value))
    (more : List Char) (o : Nat) :
    let stop := o + byteLength name.toList
    let valueStop := stop + 2 + byteLength value.toList
    attributeAt ⟨o, name.toList ++ '=' :: '"' :: (value.toList ++ '"' :: more)⟩ =
      ⟨⟨name, ⟨o, stop⟩, some ⟨value, ⟨stop + 2, valueStop⟩⟩⟩, [], ⟨valueStop + 1, more⟩⟩ := by
  have hstop : ∀ x ∈ ('=' :: '"' :: (value.toList ++ '"' :: more)).head?,
      isAttributeNameChar x = false := Cursor.stops_cons (by decide) _
  rw [attributeAt, h.afterName hstop, Cursor.run_append h.isAttributeNameChar hstop, h.lowerName]
  simp only
  rw [skipSpace_cons (by decide), Cursor.skip_one, skipSpace_cons (by decide),
    valueAt_quoted (h.2.2 value rfl), String.ofList_toList]
  rfl

/-! ## Start tags -/

theorem skipSpace_blank {x : Char} (h : Text.isMarkupSpace x = false) (rest : List Char) (o : Nat) :
    (⟨o, ' ' :: x :: rest⟩ : Cursor).skipSpace = ⟨o + 1, x :: rest⟩ := by
  have hall : ∀ y ∈ [' '], Text.isMarkupSpace y = true := List.forall_mem_singleton.mpr rfl
  exact Cursor.skipWhile_append hall (Cursor.stops_cons h rest) o

/-- The body of a start tag that goes on with an attribute. -/
theorem tagBody_blank {a : String × Option String} (h : IsAttribute a) (more : List Char)
    (o : Nat) :
    let found := attributeAt ⟨o + 1, a.1.toList ++ more⟩
    tagBody ⟨o, ' ' :: (a.1.toList ++ more)⟩ = { tagBody found.next with
      attributes := found.found :: (tagBody found.next).attributes
      problems := found.problems ++ (tagBody found.next).problems } := by
  obtain ⟨x, xs, hname, ⟨hspace, hclose, hslash, -⟩, -⟩ := h.exists_cons
  rw [hname, List.cons_append]
  have hskip := skipSpace_blank hspace (xs ++ more) o
  have hbody := tagBody_of_attribute (congrArg Cursor.rest hskip) hclose hslash
  rw [hskip] at hbody
  exact hbody

theorem byteLength_printAttribute_bare (name : String) :
    byteLength (printAttribute (name, none)) = 1 + byteLength name.toList := rfl

theorem byteLength_printAttribute_value (name value : String) :
    byteLength (printAttribute (name, some value)) =
      1 + byteLength name.toList + 2 + byteLength value.toList + 1 := by
  have hequals : '='.utf8Size = 1 := by decide
  have hquote : '"'.utf8Size = 1 := by decide
  have hblank : ' '.utf8Size = 1 := by decide
  simp only [printAttribute, Text.byteLength_cons, Text.byteLength_append, Text.byteLength_nil,
    hequals, hquote, hblank]
  omega

theorem byteLength_printAttributes_cons (a : String × Option String)
    (attributes : List (String × Option String)) :
    byteLength (printAttributes (a :: attributes)) =
      byteLength (printAttribute a) + byteLength (printAttributes attributes) := by
  rw [printAttributes, List.flatMap_cons, Text.byteLength_append]
  rfl

/-- The body of a printed start tag. -/
theorem tagBody_print {attributes : List (String × Option String)}
    (h : ∀ a ∈ attributes, IsAttribute a) (rest : List Char) (o : Nat) :
    tagBody ⟨o, printAttributes attributes ++ '>' :: rest⟩ =
      ⟨rawAttributes o attributes, [], .closed,
        ⟨o + byteLength (printAttributes attributes) + 1, rest⟩⟩ := by
  induction attributes generalizing o with
  | nil =>
    have hspace := skipSpace_cons (show Text.isMarkupSpace '>' = false by decide) rest o
    change tagBody ⟨o, '>' :: rest⟩ = _
    rw [tagBody_of_closed (congrArg Cursor.rest hspace), hspace]
    rfl
  | cons a attributes ih =>
    obtain ⟨ha, hattributes⟩ := List.forall_mem_cons.mp h
    rw [byteLength_printAttributes_cons]
    obtain ⟨name, _ | value⟩ := a
    · have hprint : printAttributes ((name, none) :: attributes) ++ '>' :: rest =
          ' ' :: (name.toList ++ (printAttributes attributes ++ '>' :: rest)) := by
        simp [printAttributes, printAttribute]
      rw [hprint, tagBody_blank ha, attributeAt_bare ha (endsName_print hattributes rest),
        ih hattributes, byteLength_printAttribute_bare, ← Nat.add_assoc, ← Nat.add_assoc]
      rfl
    · have hprint : printAttributes ((name, some value) :: attributes) ++ '>' :: rest =
          ' ' :: (name.toList ++ '=' :: '"' :: (value.toList ++
            '"' :: (printAttributes attributes ++ '>' :: rest))) := by
        simp [printAttributes, printAttribute]
      rw [hprint, tagBody_blank ha, attributeAt_value ha, ih hattributes,
        byteLength_printAttribute_value]
      simp only [← Nat.add_assoc]
      rfl

theorem isAlpha_of_isLower {c : Char} (h : c.isLower = true) : c.isAlpha = true :=
  Bool.or_eq_true_iff.mpr (Or.inr h)

theorem opening_of_isAlpha {c : Char} (h : c.isAlpha = true) (rest : List Char) :
    Opening.of ('<' :: c :: rest) = .startTag := by
  have hne (d : Char) (hd : d.isAlpha = false) : c ≠ d := ne_of_apply h hd
  unfold Opening.of
  split
  · next heq => exact absurd (List.cons.inj (List.cons.inj heq).2).1 (hne '!' (by decide))
  · next heq => exact absurd (List.cons.inj (List.cons.inj heq).2).1 (hne '!' (by decide))
  · next heq => exact absurd (List.cons.inj (List.cons.inj heq).2).1 (hne '?' (by decide))
  · next heq => exact absurd (List.cons.inj (List.cons.inj heq).2).1 (hne '/' (by decide))
  · next heq =>
    rw [← (List.cons.inj (List.cons.inj heq).2).1]
    exact if_pos h
  · next hother => exact absurd rfl (hother c rest)

namespace Tag.WellFormed

variable {tag : Tag}

theorem exists_cons (h : tag.WellFormed) :
    ∃ c cs, tag.name.toList = c :: cs ∧ c.isLower = true ∧ ∀ d ∈ cs, IsNameChar d := by
  have hname := h.1
  cases hcs : tag.name.toList with
  | nil =>
    rw [hcs] at hname
    exact hname.elim
  | cons c cs =>
    rw [hcs] at hname
    exact ⟨c, cs, rfl, hname⟩

theorem isNameChar (h : tag.WellFormed) : ∀ c ∈ tag.name.toList, IsNameChar c := by
  obtain ⟨c, cs, hname, hlower, hcs⟩ := h.exists_cons
  rw [hname]
  exact List.forall_mem_cons.mpr ⟨isNameChar_of_isLower hlower, hcs⟩

theorem lowerName (h : tag.WellFormed) : lowerName tag.name.toList = tag.name :=
  lowerName_eq fun c hc => (h.isNameChar c hc).2.2.2

end Tag.WellFormed

theorem byteLength_opening (tag : Tag) :
    byteLength tag.opening =
      1 + byteLength tag.name.toList + byteLength (printAttributes tag.attributes) + 1 := by
  have hopen : '<'.utf8Size = 1 := by decide
  have hclose : '>'.utf8Size = 1 := by decide
  simp only [Tag.opening, Text.byteLength_cons, Text.byteLength_append, Text.byteLength_nil,
    hopen, hclose]
  omega

/-- The token of a start tag that is printed from byte `o` on. -/
def Tag.openingToken (tag : Tag) (o : Nat) : Token :=
  ⟨.startTag tag.name (rawAttributes (o + 1 + byteLength tag.name.toList) tag.attributes) false,
    ⟨o, o + byteLength tag.opening⟩⟩

/-- A start tag is read as it was printed, and the body of a raw text element with it. -/
theorem step_opening {tag : Tag} (h : tag.WellFormed) (rest : List Char) (o : Nat) :
    let raw := rawText tag.name ⟨o + byteLength tag.opening, rest⟩
    step ⟨o, tag.opening ++ rest⟩ =
      if isRawTextElement tag.name then ⟨tag.openingToken o :: raw.tokens, raw.problems, raw.next⟩
      else ⟨[tag.openingToken o], [], ⟨o + byteLength tag.opening, rest⟩⟩ := by
  have hends := endsName_print h.2 rest
  have hall : ∀ c ∈ tag.name.toList, isStartTagNameChar c = true := by
    intro c hc
    obtain ⟨hspace, hclose, hslash, -⟩ := h.isNameChar c hc
    simp [isStartTagNameChar, hspace, hclose, hslash]
  have hstop : ∀ x ∈ (printAttributes tag.attributes ++ '>' :: rest).head?,
      isStartTagNameChar x = false := by
    intro x hx
    rcases hends.head x hx with rfl | rfl
    · decide
    · decide
  have hprint : tag.opening ++ rest =
      '<' :: (tag.name.toList ++ (printAttributes tag.attributes ++ '>' :: rest)) := by
    simp [Tag.opening]
  have hstep : step ⟨o, tag.opening ++ rest⟩ = startTag ⟨o, tag.opening ++ rest⟩ := by
    obtain ⟨c, cs, hname, hlower, -⟩ := h.exists_cons
    have hopening : Opening.of (tag.opening ++ rest) = .startTag := by
      rw [hprint, hname]
      exact opening_of_isAlpha (isAlpha_of_isLower hlower) _
    rw [step, hopening]
  rw [hstep, startTag, hprint, Cursor.skip_one, Cursor.run_append hall hstop,
    Cursor.skipWhile_append hall hstop, tagBody_print h.2, h.lowerName]
  have hoffset : o + '<'.utf8Size + byteLength tag.name.toList +
      byteLength (printAttributes tag.attributes) + 1 = o + byteLength tag.opening := by
    have hopen : '<'.utf8Size = 1 := by decide
    rw [byteLength_opening, hopen]
    omega
  rw [hoffset]
  cases isRawTextElement tag.name with
  | true => rfl
  | false => rfl

/-! ## Raw text -/

/-- A body that does not hold the start of an end tag goes on up to the end tag. -/
theorem suffixIndex?_body {name body : List Char} (hname : '<' ∉ name)
    (hlower : name.map Char.toLower = name)
    (hbody : ¬ '<' :: '/' :: name <:+: body.map Char.toLower) (rest : List Char) :
    Text.suffixIndex? (Text.startsIgnoringCase ('<' :: '/' :: name))
      (body ++ '<' :: '/' :: (name ++ rest)) = some body.length := by
  have hstop : ('<' :: '/' :: (name ++ rest)).map Char.toLower =
      '<' :: '/' :: (name ++ rest.map Char.toLower) := by
    rw [List.map_cons, List.map_cons, List.map_append, hlower]
    rfl
  apply Text.suffixIndex?_body_append
  · rw [Text.startsIgnoringCase_iff, hstop]
    exact ⟨rest.map Char.toLower, rfl⟩
  · rintro pre post rfl hne
    rw [Bool.eq_false_iff, Ne, Text.startsIgnoringCase_iff, List.map_append, hstop]
    rintro ⟨tail, htail⟩
    -- the start of the end tag would lie in the body, or overlap the real one
    have hinside : ∀ more, post.map Char.toLower ≠ '<' :: '/' :: name ++ more := by
      intro more hmore
      refine hbody ⟨pre.map Char.toLower, more, ?_⟩
      rw [List.map_append, hmore, List.append_assoc]
    rcases List.append_eq_append_iff.mp htail with ⟨more, hpost, -⟩ | ⟨more, hname', hmore⟩
    · exact hinside more hpost
    · cases more with
      | nil => exact hinside [] (by rw [List.append_nil] at hname' ⊢; exact hname'.symm)
      | cons x more =>
        obtain ⟨rfl, -⟩ := List.cons.inj hmore
        cases hlast : post.map Char.toLower with
        | nil => exact hne (List.map_eq_nil_iff.mp hlast)
        | cons y ys =>
          rw [hlast, List.cons_append] at hname'
          have hmem : '<' ∈ '/' :: name := by
            rw [(List.cons.inj hname').2]
            exact List.mem_append_right _ List.mem_cons_self
          rcases List.mem_cons.mp hmem with heq | hmem
          · exact absurd heq (by decide)
          · exact hname hmem

theorem Tag.closing_append (tag : Tag) (rest : List Char) :
    tag.closing ++ rest = '<' :: '/' :: (tag.name.toList ++ '>' :: rest) := by
  simp [closing]

theorem not_mem_of_isRawTextElement {name : String} (h : isRawTextElement name) :
    '<' ∉ name.toList := by
  rcases isRawTextElement_iff.mp h with rfl | rfl
  · decide
  · decide

/-- The body of a raw text element is read as it was printed. -/
theorem rawText_print {tag : Tag} (h : tag.WellFormed) (hraw : isRawTextElement tag.name)
    {body : String} (hbody : ¬ '<' :: '/' :: tag.name.toList <:+: body.toList.map Char.toLower)
    (rest : List Char) (o : Nat) :
    let stop := o + byteLength body.toList
    rawText tag.name ⟨o, body.toList ++ (tag.closing ++ rest)⟩ =
      ⟨[⟨.text body, ⟨o, stop⟩⟩], [], ⟨stop, tag.closing ++ rest⟩⟩ := by
  have hlower := map_toLower_eq fun c hc => (h.isNameChar c hc).2.2.2
  have hindex := suffixIndex?_body (not_mem_of_isRawTextElement hraw) hlower hbody ('>' :: rest)
  rw [tag.closing_append]
  unfold rawText
  simp only
  rw [hindex]
  simp only [Cursor.skip, List.take_left, List.drop_left, String.ofList_toList]
  rfl

/-! ## End tags -/

/-- An end tag is read as it was printed. -/
theorem step_closing {tag : Tag} (h : tag.WellFormed) (rest : List Char) (o : Nat) :
    let stop := o + byteLength tag.closing
    step ⟨o, tag.closing ++ rest⟩ = ⟨[⟨.endTag tag.name, ⟨o, stop⟩⟩], [], ⟨stop, rest⟩⟩ := by
  have hall : ∀ c ∈ tag.name.toList, isEndTagNameChar c = true := by
    intro c hc
    obtain ⟨hspace, hclose, -⟩ := h.isNameChar c hc
    simp [isEndTagNameChar, hspace, hclose]
  have hstop : ∀ x ∈ ('>' :: rest).head?, isEndTagNameChar x = false :=
    Cursor.stops_cons (by decide) rest
  have hbefore : ∀ c ∈ '<' :: '/' :: tag.name.toList, decide (c ≠ '>') = true := by
    refine List.forall_mem_cons.mpr ⟨by decide, List.forall_mem_cons.mpr ⟨by decide, ?_⟩⟩
    exact fun c hc => decide_eq_true (h.isNameChar c hc).2.1
  have hclose : ∀ x ∈ ('>' :: rest).head?, decide (x ≠ '>') = false :=
    Cursor.stops_cons (by decide) rest
  have hskip := Cursor.skipWhile_append hbefore hclose o
  have hstep : step ⟨o, tag.closing ++ rest⟩ = endTag ⟨o, tag.closing ++ rest⟩ := by
    obtain ⟨c, cs, hname, hlower, -⟩ := h.exists_cons
    have hopening : Opening.of (tag.closing ++ rest) = .endTag := by
      rw [tag.closing_append, hname]
      exact if_pos (isAlpha_of_isLower hlower)
    rw [step, hopening]
  have hlength : o + byteLength ('<' :: '/' :: tag.name.toList) + '>'.utf8Size =
      o + byteLength tag.closing := by
    simp only [Tag.closing, Text.byteLength_cons, Text.byteLength_append, Text.byteLength_nil]
    omega
  have htwo : (⟨o, '<' :: '/' :: (tag.name.toList ++ '>' :: rest)⟩ : Cursor).skip 2 =
      ⟨o + 2, tag.name.toList ++ '>' :: rest⟩ := rfl
  rw [List.cons_append, List.cons_append] at hskip
  rw [hstep, tag.closing_append, endTag, htwo, Cursor.run_append hall hstop, h.lowerName, hskip,
    Cursor.skip_one, hlength]
  rfl

end PageLint.Markup
