import PageLint.Proofs.Markup.Growing
import PageLint.Proofs.Markup.Tiling
import PageLint.Proofs.Source.Lines

/-!
# Parsed trees are laminar

Each token that is taken in closes elements or adds one, at its own end in the markup.
As the tokens cover the markup, the tree stays `Grown` from one to the next. So
`parse_laminar` holds of all markup, however its tags are nested.
-/

namespace PageLint.Markup

/-! ## What a token does to a tree -/

theorem Locator.range_eq_ok {locator : Locator} {span : Span} {range : SourceRange}
    (h : locator.range span = .ok range) :
    locator.position span.start = .ok range.start ∧ locator.position span.stop = .ok range.stop := by
  obtain ⟨start, hstart, h⟩ := bind_eq_ok_iff.mp h
  obtain ⟨stop, hstop, h⟩ := bind_eq_ok_iff.mp h
  cases h
  exact ⟨hstart, hstop⟩

namespace Builder

variable {b b' : Builder} {locator : Locator}

theorem startTag_eq_ok {name : String} {raws : List RawAttribute} {selfClosing : Bool}
    {span : Span} (h : b.startTag locator name raws selfClosing span = .ok b') :
    ∃ attributes range, raws.mapM locator.attribute = .ok attributes ∧
      locator.range span = .ok range ∧
      let node : Node := ⟨name, range, attributes, none, none, b.opened.head?.map (·.1)⟩
      b'.tree = (b.tree.push node).1 ∧
      (b'.opened = if selfClosing || voidElements.contains name then b.opened
        else ((b.tree.push node).2, name) :: b.opened) ∧
      b'.awaiting = if selfClosing then none else innermostRawText b'.opened := by
  obtain ⟨attributes, hattributes, h⟩ := bind_eq_ok_iff.mp h
  obtain ⟨range, hrange, h⟩ := bind_eq_ok_iff.mp h
  cases h
  exact ⟨attributes, range, hattributes, hrange, rfl, rfl, rfl⟩

/-- An end tag closes the innermost of the open elements, none of them if it matches none. -/
theorem endTag_eq_ok {name : String} {span : Span} (h : b.endTag locator name span = .ok b') :
    ∃ range n, locator.range span = .ok range ∧
      b'.tree = stopAt b.tree range.stop (b.opened.take n) ∧ b'.opened = b.opened.drop n ∧
      b'.awaiting = none := by
  obtain ⟨range, hrange, h⟩ := bind_eq_ok_iff.mp h
  obtain ⟨tree, opened, awaiting, warnings⟩ := b
  simp only at h
  cases hfound : opened.findIdx? (·.2 = name) with
  | none =>
    rw [hfound] at h
    cases h
    exact ⟨range, 0, hrange, rfl, rfl, rfl⟩
  | some k =>
    rw [hfound] at h
    cases h
    exact ⟨range, k + 1, hrange, rfl, rfl, rfl⟩

/-- A text goes to the element that waits for it, if there is one. -/
theorem text_eq_ok {content : String} {span : Span} (h : b.text locator content span = .ok b') :
    b'.opened = b.opened ∧ b'.awaiting = none ∧
      (b.awaiting = none ∧ b'.tree = b.tree ∨ ∃ id range, b.awaiting = some id ∧
        locator.range span = .ok range ∧ b'.tree = b.tree.modify id fun node =>
          { node with textRange := some range, text := some content }) := by
  obtain ⟨tree, opened, awaiting, warnings⟩ := b
  cases awaiting with
  | none =>
    cases h
    exact ⟨rfl, rfl, Or.inl ⟨rfl, rfl⟩⟩
  | some id =>
    obtain ⟨range, hrange, h⟩ := bind_eq_ok_iff.mp h
    cases h
    exact ⟨rfl, rfl, Or.inr ⟨id, range, rfl, hrange, rfl⟩⟩

end Builder

/-! ## Taking in tokens -/

theorem startTags_cons (t : Token) (tokens : List Token) :
    startTags (t :: tokens) = startTags [t] ++ startTags tokens := by
  rw [← List.singleton_append, startTags, List.filter_append]
  rfl

theorem Token.isLeaf_iff {t : Token} {name : String} {raws : List RawAttribute}
    {selfClosing : Bool} (h : t.kind = .startTag name raws selfClosing) :
    t.IsLeaf ↔ (selfClosing || voidElements.contains name) = true := by
  rw [Bool.or_eq_true, List.contains_iff_mem]
  constructor
  · rintro ⟨name', raws', selfClosing', hkind, hleaf⟩
    cases h.symm.trans hkind
    exact hleaf
  · exact fun hleaf => ⟨name, raws, selfClosing, h, hleaf⟩

namespace Grown

variable {locator : Locator} {b b' : Builder} {tags : List Token}

/-- One step of the run: after the token, the tree has grown up to its end. -/
theorem token (short : Text.byteLength locator.file.content.toList < UInt32.size) {t : Token}
    (covers : t.Covers locator.file.content.toList)
    (grown : Grown locator b.tree b.opened t.span.start tags) (h : b.token locator t = .ok b') :
    Grown locator b'.tree b'.opened t.span.stop (tags ++ startTags [t]) := by
  obtain ⟨kind, span⟩ := t
  cases kind with
  | startTag name raws selfClosing =>
    obtain ⟨attributes, range, hattributes, hrange, htree, hopened, -⟩ := Builder.startTag_eq_ok h
    obtain ⟨hstart, hstop⟩ := Locator.range_eq_ok hrange
    rw [htree]
    apply grown.push short rfl covers
    · exact ⟨raws, selfClosing, rfl, hattributes, covers.start, hstart⟩
    · rfl
    · exact ⟨covers.stop, hstop⟩
    · rw [Opens, Token.isLeaf_iff rfl, hopened]
      split
      · exact Or.inl rfl
      · next hleaf => exact Or.inr ⟨hleaf, name, rfl⟩
  | endTag name =>
    obtain ⟨range, n, hrange, htree, hopened, -⟩ := Builder.endTag_eq_ok h
    obtain ⟨-, hstop⟩ := Locator.range_eq_ok hrange
    change Grown locator b'.tree b'.opened span.stop (tags ++ [])
    rw [htree, hopened, List.append_nil]
    exact grown.close short ⟨covers.stop, hstop⟩ covers.le n
  | text content =>
    obtain ⟨hopened, -, htree⟩ := Builder.text_eq_ok h
    change Grown locator b'.tree b'.opened span.stop (tags ++ [])
    rw [hopened, List.append_nil]
    apply Grown.later _ covers.le
    rcases htree with ⟨-, htree⟩ | ⟨id, range, -, -, htree⟩
    · rw [htree]
      exact grown
    · rw [htree]
      exact grown.modify id (some range) (some content)
  | comment =>
    cases h
    change Grown locator b.tree b.opened span.stop (tags ++ [])
    rw [List.append_nil]
    exact grown.later covers.le
  | declaration =>
    cases h
    change Grown locator b.tree b.opened span.stop (tags ++ [])
    rw [List.append_nil]
    exact grown.later covers.le

theorem foldlM (short : Text.byteLength locator.file.content.toList < UInt32.size)
    {tokens : List Token} (covers : ∀ t ∈ tokens, t.Covers locator.file.content.toList)
    {start stop : Nat} (tiles : Tiles start tokens stop)
    (grown : Grown locator b.tree b.opened start tags)
    (h : tokens.foldlM (Builder.token · locator) b = .ok b') :
    Grown locator b'.tree b'.opened stop (tags ++ startTags tokens) := by
  -- each token starts where the tree has grown up to
  induction tokens generalizing b start tags with
  | nil =>
    cases h
    cases tiles
    rw [startTags, List.filter_nil, List.append_nil]
    exact grown
  | cons t tokens ih =>
    obtain ⟨rfl, tiles⟩ := tiles
    obtain ⟨hcovers, covers⟩ := List.forall_mem_cons.mp covers
    rw [List.foldlM_cons] at h
    obtain ⟨next, hnext, h⟩ := bind_eq_ok_iff.mp h
    rw [startTags_cons, ← List.append_assoc]
    exact ih covers tiles (grown.token short hcovers hnext) h

end Grown

/-! ## Markup that can be located -/

theorem exists_checkedAdd {a b : UInt32} (h : a.toNat + b.toNat < UInt32.size) :
    ∃ c, checkedAdd a b = .ok c := by
  rw [checkedAdd, if_pos h]
  exact ⟨_, rfl⟩

namespace Locator

/-- Every byte of the text has a position in the file: the offset does not overflow. -/
def Fits (locator : Locator) : Prop := ∀ k, ∃ p, locator.position k = .ok p

variable {locator : Locator}

theorem Fits.of_le (h : ∀ o, locator.offset = some o →
    locator.file.content.toList.count '\n' + o.line.toNat < UInt32.size ∧
      locator.file.content.toList.length + o.column.toNat < UInt32.size) : locator.Fits := by
  intro k
  unfold position
  cases hoffset : locator.offset with
  | none => exact ⟨_, rfl⟩
  | some o =>
    obtain ⟨hline, hcolumn⟩ := h o hoffset
    obtain ⟨hkline, hkcolumn⟩ := locator.file.positionAt_le k
    obtain ⟨line, hline⟩ :=
      exists_checkedAdd (Nat.lt_of_le_of_lt (Nat.add_le_add_right hkline _) hline)
    obtain ⟨column, hcolumn⟩ :=
      exists_checkedAdd (Nat.lt_of_le_of_lt (Nat.add_le_add_right hkcolumn _) hcolumn)
    simp only [Position.offsetBy, hline, hcolumn]
    split
    · exact ⟨_, rfl⟩
    · exact ⟨_, rfl⟩

namespace Fits

variable (fits : locator.Fits)

include fits

theorem exists_range (span : Span) : ∃ range, locator.range span = .ok range :=
  exists_bind_eq_ok (fits span.start) fun _ =>
    exists_bind_eq_ok (fits span.stop) fun _ => ⟨_, rfl⟩

theorem exists_attributes (raws : List RawAttribute) :
    ∃ attributes, raws.mapM locator.attribute = .ok attributes := by
  apply exists_mapM_eq_ok
  intro raw _
  exact exists_bind_eq_ok (fits.exists_range _) fun _ => ⟨_, rfl⟩

theorem exists_warnings (problems : List Problem) :
    ∃ warnings, problems.mapM locator.warning = .ok warnings := by
  apply exists_mapM_eq_ok
  intro problem _
  exact exists_bind_eq_ok (fits.exists_range problem.span) fun _ => ⟨_, rfl⟩

theorem exists_token (b : Builder) (t : Token) : ∃ b', b.token locator t = .ok b' := by
  obtain ⟨kind, span⟩ := t
  cases kind with
  | startTag name raws selfClosing =>
    apply exists_bind_eq_ok (fits.exists_attributes raws)
    intro attributes
    exact exists_bind_eq_ok (fits.exists_range span) fun _ => ⟨_, rfl⟩
  | endTag name =>
    apply exists_bind_eq_ok (fits.exists_range span)
    intro range
    obtain ⟨tree, opened, awaiting, warnings⟩ := b
    simp only
    split
    · exact ⟨_, rfl⟩
    · exact ⟨_, rfl⟩
  | text content =>
    obtain ⟨tree, opened, awaiting, warnings⟩ := b
    cases awaiting with
    | none => exact ⟨_, rfl⟩
    | some id => exact exists_bind_eq_ok (fits.exists_range span) fun _ => ⟨_, rfl⟩
  | comment => exact ⟨_, rfl⟩
  | declaration => exact ⟨_, rfl⟩

end Fits

end Locator

/-! ## The parsed tree -/

theorem exists_parse {url : Path} {source : String} {offset : Option Offset}
    (fits : Locator.Fits ⟨SourceFile.ofContent url source, offset⟩) :
    ∃ parsed, parse url source offset = .ok parsed := by
  apply exists_bind_eq_ok (fits.exists_warnings (lex source).problems)
  intro warnings
  apply exists_bind_eq_ok
  · exact exists_foldlM_eq_ok (fun b t _ => fits.exists_token b t) _
  · intro b
    exact exists_bind_eq_ok (fits _) fun _ => ⟨_, rfl⟩

/-- Parsed markup comes from a builder that has taken in all tokens. -/
theorem exists_builder_of_parse {url : Path} {source : String} {offset : Option Offset}
    {parsed : Parsed} (short : Text.byteLength source.toList < UInt32.size)
    (h : parse url source offset = .ok parsed) :
    let locator : Locator := ⟨SourceFile.ofContent url source, offset⟩
    ∃ warnings b stop, (lex source).tokens.foldlM (Builder.token · locator)
        ⟨Tree.empty, [], none, warnings⟩ = .ok b ∧
      Grown locator b.tree b.opened (Text.byteLength source.toList)
        (startTags (lex source).tokens) ∧
      locator.position (Text.byteLength source.toList) = .ok stop ∧
      parsed.tree = stopAt b.tree stop b.opened := by
  intro locator
  obtain ⟨warnings, -, h⟩ := bind_eq_ok_iff.mp h
  obtain ⟨b, hb, h⟩ := bind_eq_ok_iff.mp h
  obtain ⟨stop, hstop, h⟩ := bind_eq_ok_iff.mp h
  cases h
  have hshort : Text.byteLength locator.file.content.toList < UInt32.size := short
  have grown := Grown.foldlM hshort (covers_lex source) (tiles_lex source)
    (b := ⟨Tree.empty, [], none, warnings.toArray⟩) (Grown.empty _) hb
  exact ⟨_, b, stop, hb, grown, hstop, rfl⟩

/-- The tree of parsed markup has grown from its start tags, and nothing is open in it. -/
theorem grown_parse {url : Path} {source : String} {offset : Option Offset} {parsed : Parsed}
    (short : Text.byteLength source.toList < UInt32.size)
    (h : parse url source offset = .ok parsed) :
    Grown ⟨SourceFile.ofContent url source, offset⟩ parsed.tree []
      (Text.byteLength source.toList) (startTags (lex source).tokens) := by
  obtain ⟨warnings, b, stop, -, grown, hstop, htree⟩ := exists_builder_of_parse short h
  have hend : Text.IsBoundary source.toList (Text.byteLength source.toList) :=
    ⟨source.toList, [], (List.append_nil _).symm, rfl⟩
  have closed := grown.close short ⟨hend, hstop⟩ (Nat.le_refl _) b.opened.length
  rw [List.take_length, List.drop_length] at closed
  rw [htree]
  exact closed

/-- Markup that can be located has a tree, and every tree of markup is laminar: it has an
element for each start tag, in their order, void and self-closing ones hold nothing, and
the ranges tell which elements are inside which. -/
theorem parse_laminar (url : Path) (source : String) (offset : Option Offset)
    (short : Text.byteLength source.toList < UInt32.size) :
    let locator : Locator := ⟨SourceFile.ofContent url source, offset⟩
    let tags := startTags (lex source).tokens
    (locator.Fits → ∃ parsed, parse url source offset = .ok parsed) ∧
      ∀ parsed, parse url source offset = .ok parsed →
        parsed.tree.size = tags.length ∧
        (∀ i node, parsed.tree.get? i = some node →
          ∃ t, tags[i.index.toNat]? = some t ∧ node.MadeOf locator t) ∧
        (∀ i t, tags[i.index.toNat]? = some t → t.IsLeaf → ∀ j, ¬ parsed.tree.Inside j i) ∧
        parsed.tree.Laminar := by
  intro locator tags
  refine ⟨exists_parse, fun parsed h => ?_⟩
  have grown := grown_parse short h
  refine ⟨grown.size_eq, fun i node => grown.made, ?_, (grown.nested short).laminar⟩
  intro i t ht hleaf j hinside
  obtain ⟨child, -, hchild⟩ := Relation.TransGen.tail'_iff.mp hinside
  exact grown.not_isLeaf ht (Or.inr ⟨child, hchild⟩) hleaf

/-- Markup with elements that overlap, that end with others and that never end. -/
def overlapping : String := "<i>é<b>\n</i><br></b><p><hr/>x"

theorem parse_laminar_overlapping :
    Text.byteLength overlapping.toList < UInt32.size ∧
      ∃ parsed, parse ⟨"a.html"⟩ overlapping (some ⟨7, 4294967260⟩) = .ok parsed ∧
        parsed.tree.size = 5 ∧ parsed.tree.Laminar := by
  have short : Text.byteLength overlapping.toList < UInt32.size := by decide +kernel
  have htags : (startTags (lex overlapping).tokens).length = 5 := by decide +kernel
  obtain ⟨hexists, hall⟩ := parse_laminar ⟨"a.html"⟩ overlapping (some ⟨7, 4294967260⟩) short
  have fits : Locator.Fits ⟨SourceFile.ofContent ⟨"a.html"⟩ overlapping, some ⟨7, 4294967260⟩⟩ := by
    apply Locator.Fits.of_le
    intro o ho
    cases ho
    decide +kernel
  obtain ⟨parsed, hparsed⟩ := hexists fits
  obtain ⟨hsize, -, -, laminar⟩ := hall parsed hparsed
  exact ⟨short, parsed, hparsed, hsize.trans htags, laminar⟩

end PageLint.Markup
