import PageLint.Proofs.Markup.Ranges
import PageLint.Proofs.Scanner.Functions

/-!
# Embedded markup

Markup that is a piece of a file has the same tree as on its own. Only its positions are those
of the file, each moved once, whether an element gets it when it is opened or when it is closed.
-/

namespace PageLint

variable (μ : Position → Position)

/-! ## Other positions -/

/-- The position after the addition of an offset that fits. -/
def Position.movedBy (offset : Offset) (p : Position) : Position :=
  ⟨p.line + offset.line, if p.line = 0 then p.column + offset.column else p.column⟩

theorem checkedAdd_eq_ok {a b c : UInt32} (h : checkedAdd a b = .ok c) : c = a + b := by
  unfold checkedAdd at h
  split at h
  · exact (Except.ok.inj h).symm
  · cases h

theorem Position.eq_movedBy_of_offsetBy {p q : Position} {offset : Offset}
    (h : p.offsetBy offset = .ok q) : q = p.movedBy offset := by
  unfold offsetBy at h
  rw [movedBy]
  split at h
  · next hzero =>
    obtain ⟨column, hcolumn, h⟩ := bind_eq_ok_iff.mp h
    obtain ⟨line, hline, h⟩ := bind_eq_ok_iff.mp h
    cases h
    rw [if_pos hzero, checkedAdd_eq_ok hcolumn, checkedAdd_eq_ok hline]
  · next hzero =>
    obtain ⟨column, hcolumn, h⟩ := bind_eq_ok_iff.mp h
    obtain ⟨line, hline, h⟩ := bind_eq_ok_iff.mp h
    cases h
    cases hcolumn
    rw [if_neg hzero, checkedAdd_eq_ok hline]

def SourceRange.mapPositions (r : SourceRange) : SourceRange := ⟨r.file, μ r.start, μ r.stop⟩

def Warning.mapPositions (w : Warning) : Warning :=
  { w with range := w.range.map (·.mapPositions μ) }

def SourceRange.positions (r : SourceRange) : List Position := [r.start, r.stop]

namespace Markup

def Attribute.mapPositions (a : Attribute) : Attribute :=
  { a with range := a.range.mapPositions μ }

def Node.mapPositions (node : Node) : Node :=
  { node with
    range := node.range.mapPositions μ
    attributes := node.attributes.map (·.mapPositions μ)
    textRange := node.textRange.map (·.mapPositions μ) }

/-- The positions of an element, of its attributes and of its text. -/
def Node.positions (node : Node) : List Position :=
  node.range.positions ++ node.attributes.flatMap (·.range.positions) ++
    node.textRange.toList.flatMap SourceRange.positions

def Tree.mapPositions (tree : Tree) : Tree := ⟨tree.nodes.mapEntries fun _ => Node.mapPositions μ⟩

/-- The tree and the warnings with other positions, and nothing else changed. -/
def Parsed.mapPositions (parsed : Parsed) : Parsed :=
  ⟨parsed.tree.mapPositions μ, parsed.warnings.map (·.mapPositions μ)⟩

/-- All positions in the tree and in the warnings. -/
def Parsed.positions (parsed : Parsed) : List Position :=
  parsed.tree.nodes.values.flatMap Node.positions ++
    parsed.warnings.flatMap fun w => w.range.toList.flatMap SourceRange.positions

namespace Tree

variable (tree : Tree)

theorem mapPositions_push (node : Node) :
    (tree.mapPositions μ).push (node.mapPositions μ) =
      ((tree.push node).1.mapPositions μ, (tree.push node).2) := by
  rw [push, mapPositions, Arena.alloc_mapEntries]
  rfl

theorem mapPositions_modify (id : NodeId) {f g : Node → Node}
    (h : ∀ node, g (node.mapPositions μ) = (f node).mapPositions μ) :
    (tree.mapPositions μ).modify id g = (tree.modify id f).mapPositions μ :=
  congrArg Tree.mk (tree.nodes.modify_mapEntries id h)

theorem mapPositions_stopAt (stop : Position) (ids : List (NodeId × String)) :
    stopAt (tree.mapPositions μ) (μ stop) ids = (stopAt tree stop ids).mapPositions μ := by
  induction ids generalizing tree with
  | nil => rfl
  | cons id ids ih =>
    have hmodify := tree.mapPositions_modify μ id.1
      (f := fun node => { node with range := { node.range with stop } })
      (g := fun node => { node with range := { node.range with stop := μ stop } }) fun _ => rfl
    rw [stopAt, List.foldl_cons, hmodify]
    exact ih _

end Tree

/-- The elements and the warnings so far with other positions. -/
def Builder.mapPositions (b : Builder) : Builder :=
  ⟨b.tree.mapPositions μ, b.opened, b.awaiting, b.warnings.map (·.mapPositions μ)⟩

/-! ## Locators that move a text -/

/-- The locator gives every boundary of its text the position that `μ` moves it to. -/
def Locator.Moves (locator : Locator) : Prop :=
  ∀ n, Text.IsBoundary locator.file.content.toList n →
    locator.position n = .ok (μ (locator.file.positionAt n))

namespace Locator.Moves

variable {μ} {locator : Locator} (moves : locator.Moves μ)

include moves

theorem range_eq {span : Span} (h : span.In locator.file.content.toList) :
    locator.range span = .ok ((locator.file.rangeOf span).mapPositions μ) := by
  rw [Locator.range, moves _ h.start, moves _ h.stop]
  rfl

theorem attribute_eq {raw : RawAttribute} (h : raw.In locator.file.content.toList) :
    locator.attribute raw = .ok ((raw.located locator.file).mapPositions μ) := by
  obtain ⟨name, nameSpan, value⟩ := raw
  cases value with
  | none =>
    rw [Locator.attribute, moves.range_eq h.name]
    rfl
  | some value =>
    rw [Locator.attribute, moves.range_eq (h.value rfl)]
    rfl

theorem warning_eq {problem : Problem} (h : problem.span.In locator.file.content.toList) :
    locator.warning problem = .ok ((problem.located locator.file).mapPositions μ) := by
  rw [Locator.warning, moves.range_eq h]
  rfl

/-! ## Building the tree -/

section

variable (b : Builder) {span : Span} (hspan : span.In locator.file.content.toList)

include hspan

theorem startTag_eq (name : String) {attributes : List RawAttribute}
    (hattributes : ∀ raw ∈ attributes, raw.In locator.file.content.toList) (selfClosing : Bool) :
    (b.mapPositions μ).startTag locator name attributes selfClosing span =
      .ok ((b.opening locator.file name attributes selfClosing span).mapPositions μ) := by
  let node : Node := ⟨name, locator.file.rangeOf span, attributes.map (·.located locator.file),
    none, none, b.opened.head?.map (·.1)⟩
  have hattributes : attributes.mapM locator.attribute =
      .ok (node.mapPositions μ).attributes := by
    rw [mapM_eq_ok fun raw hraw => moves.attribute_eq (hattributes raw hraw), Node.mapPositions,
      List.map_map]
    rfl
  rw [Builder.startTag, hattributes, moves.range_eq hspan]
  change Except.ok (
    let pushed := (b.tree.mapPositions μ).push (node.mapPositions μ)
    let opened := if selfClosing || voidElements.contains name then b.opened
      else (pushed.2, name) :: b.opened
    Builder.mk pushed.1 opened (if selfClosing then none else innermostRawText opened) _) = _
  rw [b.tree.mapPositions_push μ node]
  rfl

theorem endTag_eq (name : String) :
    (b.mapPositions μ).endTag locator name span =
      .ok ((b.closing locator.file name span).mapPositions μ) := by
  obtain ⟨tree, opened, awaiting, warnings⟩ := b
  rw [Builder.endTag, moves.range_eq hspan, Builder.closing]
  simp only [Builder.mapPositions]
  cases opened.findIdx? (·.2 = name) with
  | none =>
    change Except.ok _ = Except.ok _
    rw [Array.map_push]
    rfl
  | some k =>
    change Except.ok (Builder.mk (stopAt _ _ _) _ _ _) = Except.ok _
    rw [← tree.mapPositions_stopAt]
    rfl

theorem text_eq (content : String) :
    (b.mapPositions μ).text locator content span =
      .ok ((b.filling locator.file content span).mapPositions μ) := by
  obtain ⟨tree, opened, awaiting, warnings⟩ := b
  cases awaiting with
  | none => rfl
  | some id =>
    have hmodify := tree.mapPositions_modify μ id
      (f := fun node => { node with
        textRange := some (locator.file.rangeOf span), text := some content })
      (g := fun node => { node with
        textRange := some ((locator.file.rangeOf span).mapPositions μ), text := some content })
      fun _ => rfl
    change Except.bind (locator.range span) _ = _
    rw [moves.range_eq hspan]
    change Except.ok (Builder.mk (Tree.modify _ _ _) _ _ _) = _
    rw [hmodify]
    rfl

end

theorem token_eq (b : Builder) {t : Token} (hspan : t.span.In locator.file.content.toList)
    (hattributes : ∀ raw ∈ t.attributes, raw.In locator.file.content.toList) :
    (b.mapPositions μ).token locator t = .ok ((b.taking locator.file t).mapPositions μ) := by
  obtain ⟨kind, span⟩ := t
  cases kind with
  | startTag name attributes selfClosing =>
    exact moves.startTag_eq b hspan name hattributes selfClosing
  | endTag name => exact moves.endTag_eq b hspan name
  | text content => exact moves.text_eq b hspan content
  | comment => rfl
  | declaration => rfl

theorem foldlM_token_eq (b : Builder) {tokens : List Token}
    (hspans : ∀ t ∈ tokens, t.span.In locator.file.content.toList ∧
      ∀ raw ∈ t.attributes, raw.In locator.file.content.toList) :
    tokens.foldlM (Builder.token · locator) (b.mapPositions μ) =
      .ok ((tokens.foldl (Builder.taking locator.file) b).mapPositions μ) := by
  induction tokens generalizing b with
  | nil => rfl
  | cons t tokens ih =>
    obtain ⟨⟨hspan, hattributes⟩, hrest⟩ := List.forall_mem_cons.mp hspans
    rw [List.foldlM_cons, moves.token_eq b hspan hattributes]
    exact ih _ hrest

end Locator.Moves

/-- Where a locator moves a text to, its tree and its warnings are moved to. -/
theorem parse_of_moves {μ : Position → Position} {url : Path} {contents : String}
    {offset : Option Offset}
    (moves : Locator.Moves μ ⟨SourceFile.ofContent url contents, offset⟩) {parsed : Parsed}
    (h : parse url contents none = .ok parsed) :
    parse url contents offset = .ok (parsed.mapPositions μ) := by
  let file := SourceFile.ofContent url contents
  have hwarnings : (lex contents).problems.mapM (Locator.warning ⟨file, offset⟩) =
      .ok (((lex contents).problems.map (·.located file)).map (·.mapPositions μ)) := by
    rw [mapM_eq_ok fun problem hproblem =>
      moves.warning_eq (problems_in_lex contents problem hproblem), List.map_map]
    rfl
  have hend : Text.IsBoundary contents.toList (Text.byteLength contents.toList) :=
    ⟨contents.toList, [], (List.append_nil _).symm, rfl⟩
  have hbuilt := moves.foldlM_token_eq
    ⟨Tree.empty, [], none, ((lex contents).problems.map (·.located file)).toArray⟩
    fun t ht => ⟨(covers_lex contents t ht).span_in, attributes_in_lex contents t ht⟩
  have hstart : Builder.mapPositions μ
      ⟨Tree.empty, [], none, ((lex contents).problems.map (·.located file)).toArray⟩ =
        ⟨Tree.empty, [], none,
          (((lex contents).problems.map (·.located file)).map (·.mapPositions μ)).toArray⟩ := by
    rw [Builder.mapPositions, List.map_toArray]
    rfl
  rw [parse_page] at h
  cases h
  rw [parse, hwarnings]
  rw [hstart] at hbuilt
  change Except.bind (List.foldlM _ _ _) _ = _
  rw [hbuilt]
  change Except.bind (Locator.position _ _) _ = _
  rw [moves _ hend]
  change Except.ok (Parsed.mk (stopAt (Tree.mapPositions μ _) (μ _) _) (Array.map _ _).toList) = _
  rw [Tree.mapPositions_stopAt, Array.toList_map]
  rfl

/-- The positions of a page are those of its boundaries. -/
theorem positions_parse (url : Path) (contents : String) :
    ∃ parsed, parse url contents none = .ok parsed ∧ ∀ p ∈ parsed.positions,
      ∃ i, Text.IsBoundary contents.toList i ∧
        p = (SourceFile.ofContent url contents).positionAt i := by
  have hrange : ∀ {range : SourceRange}, range.Of (SourceFile.ofContent url contents) →
      ∀ p ∈ range.positions, ∃ i, Text.IsBoundary contents.toList i ∧
        p = (SourceFile.ofContent url contents).positionAt i := by
    rintro range ⟨span, hspan, rfl⟩ p hp
    simp only [SourceRange.positions, List.mem_cons, List.not_mem_nil, or_false] at hp
    rcases hp with rfl | rfl
    · exact ⟨span.start, hspan.start, rfl⟩
    · exact ⟨span.stop, hspan.stop, rfl⟩
  obtain ⟨parsed, hparsed, hnodes, hwarnings⟩ := parse_ranges url contents
  refine ⟨parsed, hparsed, fun p hp => ?_⟩
  rcases List.mem_append.mp hp with hp | hp
  · obtain ⟨node, hnode, hp⟩ := List.mem_flatMap.mp hp
    have hstops := hnodes node hnode
    rcases List.mem_append.mp hp with hp | hp
    · rcases List.mem_append.mp hp with hp | hp
      · exact hrange hstops.range_of p hp
      · obtain ⟨a, ha, hp⟩ := List.mem_flatMap.mp hp
        exact hrange (hstops.attributes a ha) p hp
    · obtain ⟨range, htext, hp⟩ := List.mem_flatMap.mp hp
      exact hrange (hstops.textRange (Option.mem_toList.mp htext)) p hp
  · obtain ⟨w, hw, hp⟩ := List.mem_flatMap.mp hp
    obtain ⟨range, hwrange, hof⟩ := hwarnings w hw
    rw [hwrange] at hp
    obtain ⟨range', hmem, hp⟩ := List.mem_flatMap.mp hp
    rw [← Option.some.inj (Option.mem_toList.mp hmem)] at hp
    exact hrange hof p hp

/-- Markup that stands at byte `k` of a page is parsed there as it is on its own: the trees and
the warnings differ in their positions alone. Each of these is that of a byte `i` of the markup,
and becomes that of byte `k + i` of the page. -/
theorem parse_of_standsAt {page : SourceFile}
    (short : Text.byteLength page.content.toList < UInt32.size) {k : Nat} {part : String}
    (stands : Text.StandsAt page.content.toList k part.toList) (url : Path) :
    let file := SourceFile.ofContent url part
    let offset := (page.positionAt k).toOffset
    ∃ parsed, parse url part none = .ok parsed ∧
      parse url part (some offset) = .ok (parsed.mapPositions (·.movedBy offset)) ∧
      (∀ p ∈ parsed.positions, ∃ i, Text.IsBoundary part.toList i ∧ p = file.positionAt i) ∧
      ∀ i, Text.IsBoundary part.toList i →
        (file.positionAt i).movedBy offset = page.positionAt (k + i) := by
  intro file offset
  have hposition : ∀ i, Text.IsBoundary part.toList i →
      (⟨file, some offset⟩ : Locator).position i = .ok (page.positionAt (k + i)) :=
    fun i hi => FunctionKeyword.position_embedded short stands hi
  have hmoved : ∀ i, Text.IsBoundary part.toList i →
      (file.positionAt i).movedBy offset = page.positionAt (k + i) :=
    fun i hi => (Position.eq_movedBy_of_offsetBy (hposition i hi)).symm
  have moves : Locator.Moves (·.movedBy offset) ⟨file, some offset⟩ := by
    intro i hi
    rw [hposition i hi]
    exact congrArg Except.ok (hmoved i hi).symm
  obtain ⟨parsed, hparsed, hpositions⟩ := positions_parse url part
  exact ⟨parsed, hparsed, parse_of_moves moves hparsed, hpositions, hmoved⟩

/-- Markup whose first line ends inside a tag. -/
def seamMarkup : String := "<b é=1\r\n></i><script>\ré</b"

/-- A page that holds it right after a carriage return. -/
def seamPage : SourceFile := SourceFile.ofContent ⟨"a.html"⟩ ("é\n\r" ++ seamMarkup ++ "é")

theorem positions_seamMarkup :
    (parse ⟨"b.html"⟩ seamMarkup none).map (·.positions) =
      .ok [⟨0, 0⟩, ⟨1, 18⟩, ⟨0, 5⟩, ⟨0, 6⟩, ⟨1, 5⟩, ⟨1, 18⟩, ⟨1, 13⟩, ⟨1, 18⟩, ⟨1, 13⟩,
        ⟨1, 18⟩, ⟨1, 1⟩, ⟨1, 5⟩] := by
  decide +kernel

theorem parse_of_standsAt_seamPage :
    Text.byteLength seamPage.content.toList < UInt32.size ∧
      Text.StandsAt seamPage.content.toList 4 seamMarkup.toList ∧
      ∃ parsed, parse ⟨"b.html"⟩ seamMarkup none = .ok parsed ∧
        parse ⟨"b.html"⟩ seamMarkup (some ⟨1, 1⟩) =
          .ok (parsed.mapPositions (·.movedBy ⟨1, 1⟩)) ∧
        (parsed.positions.take 3).map (·.movedBy ⟨1, 1⟩) = [⟨1, 1⟩, ⟨2, 18⟩, ⟨1, 6⟩] := by
  have short : Text.byteLength seamPage.content.toList < UInt32.size := by decide +kernel
  have stands : Text.StandsAt seamPage.content.toList 4 seamMarkup.toList :=
    ⟨"é\n\r".toList, "é".toList, by decide +kernel, by decide +kernel⟩
  have hoffset : (seamPage.positionAt 4).toOffset = ⟨1, 1⟩ := by decide +kernel
  obtain ⟨parsed, hparsed, hmoved, -, -⟩ := parse_of_standsAt short stands ⟨"b.html"⟩
  rw [hoffset] at hmoved
  obtain ⟨parsed', hparsed', hpositions⟩ := map_eq_ok_iff.mp positions_seamMarkup
  cases hparsed.symm.trans hparsed'
  refine ⟨short, stands, parsed, hparsed, hmoved, ?_⟩
  rw [hpositions]
  decide

end Markup

end PageLint
