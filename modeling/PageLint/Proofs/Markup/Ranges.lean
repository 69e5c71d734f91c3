import PageLint.Proofs.Markup.RawContent
import PageLint.Proofs.Markup.Spans
import PageLint.Proofs.Source.Order

/-!
# Ranges of a page

Every range in the tree of a page, and every range that its parser warns about, is that of a
span of the page. Elements are closed by tokens behind them, so that none of them stops before
it starts.
-/

namespace PageLint

/-- The range is that of a span of the file. -/
def SourceRange.Of (file : SourceFile) (range : SourceRange) : Prop :=
  ∃ span : Markup.Span, span.In file.content.toList ∧ range = file.rangeOf span

/-- The warning is about a span of the file. -/
def Warning.Of (file : SourceFile) (w : Warning) : Prop :=
  ∃ range, w.range = some range ∧ range.Of file

theorem SourceRange.Of.start_le_stop {file : SourceFile} {range : SourceRange}
    (h : range.Of file) (short : Text.byteLength file.content.toList < UInt32.size) :
    range.start ≤ range.stop := by
  obtain ⟨span, hspan, rfl⟩ := h
  let locator : Markup.Locator := ⟨file, none⟩
  have hstart : locator.Places span.start (file.positionAt span.start) := ⟨hspan.start, rfl⟩
  have hstop : locator.Places span.stop (file.positionAt span.stop) := ⟨hspan.stop, rfl⟩
  have hshort : Text.byteLength locator.file.content.toList < UInt32.size := short
  exact (hstart.le_iff hshort hstop).mpr hspan.le

namespace Markup

variable {file : SourceFile} {k : Nat}

/-- The element is one of the file and stops by byte `k`; so far, if it is still open. -/
structure Node.StopsBy (file : SourceFile) (k : Nat) (node : Node) : Prop where
  range : ∃ span : Span, span.In file.content.toList ∧ span.stop ≤ k ∧
    node.range = file.rangeOf span
  attributes : ∀ a ∈ node.attributes, a.range.Of file
  textRange {range : SourceRange} (h : node.textRange = some range) : range.Of file

namespace Node.StopsBy

variable {node : Node}

theorem range_of (h : node.StopsBy file k) : node.range.Of file := by
  obtain ⟨span, hspan, -, hrange⟩ := h.range
  exact ⟨span, hspan, hrange⟩

theorem later (h : node.StopsBy file k) {k' : Nat} (hk : k ≤ k') : node.StopsBy file k' := by
  obtain ⟨span, hspan, hstop, hrange⟩ := h.range
  exact ⟨⟨span, hspan, Nat.le_trans hstop hk, hrange⟩, h.attributes, h.textRange⟩

/-- An element that is closed further on stops there. -/
theorem stopAt (h : node.StopsBy file k) {k' : Nat} (hk : k ≤ k')
    (hk' : Text.IsBoundary file.content.toList k') :
    ({ node with range := { node.range with stop := file.positionAt k' } } : Node).StopsBy
      file k' := by
  obtain ⟨span, hspan, hstop, hrange⟩ := h.range
  refine ⟨⟨⟨span.start, k'⟩, ⟨hspan.start, hk', ?_⟩, Nat.le_refl k', ?_⟩, h.attributes, h.textRange⟩
  · exact Nat.le_trans hspan.le (Nat.le_trans hstop hk)
  · rw [hrange]
    rfl

end Node.StopsBy

theorem RawAttribute.In.located {raw : RawAttribute} (h : raw.In file.content.toList) :
    (raw.located file).range.Of file := by
  obtain ⟨name, nameSpan, value⟩ := raw
  cases value with
  | none => exact ⟨nameSpan, h.name, rfl⟩
  | some value => exact ⟨value.span, h.value rfl, rfl⟩

/-- All elements of the builder stop by byte `k` of the file, and all that is wrong is in it. -/
structure Builder.StopsBy (file : SourceFile) (k : Nat) (b : Builder) : Prop where
  nodes : ∀ node ∈ b.tree.nodes.values, node.StopsBy file k
  warnings : ∀ w ∈ b.warnings.toList, w.Of file

namespace Builder.StopsBy

variable {b : Builder} {span : Span}

theorem opening (h : b.StopsBy file k) (hspan : span.In file.content.toList) (hk : k ≤ span.start)
    (name : String) {attributes : List RawAttribute}
    (hattributes : ∀ raw ∈ attributes, raw.In file.content.toList) (selfClosing : Bool) :
    (b.opening file name attributes selfClosing span).StopsBy file span.stop := by
  have hlater := Nat.le_trans hk hspan.le
  refine ⟨?_, h.warnings⟩
  refine Tree.forall_push (fun node hnode => (h.nodes node hnode).later hlater) ⟨?_, ?_, nofun⟩
  · exact ⟨span, hspan, Nat.le_refl _, rfl⟩
  · intro a ha
    obtain ⟨raw, hraw, rfl⟩ := List.mem_map.mp ha
    exact (hattributes raw hraw).located

theorem closing (h : b.StopsBy file k) (hspan : span.In file.content.toList) (hk : k ≤ span.start)
    (name : String) : (b.closing file name span).StopsBy file span.stop := by
  have hlater := Nat.le_trans hk hspan.le
  have hnodes : ∀ node ∈ b.tree.nodes.values, node.StopsBy file span.stop :=
    fun node hnode => (h.nodes node hnode).later hlater
  unfold Builder.closing
  split
  · refine ⟨hnodes, ?_⟩
    intro w hw
    rw [Array.toList_push] at hw
    rcases List.mem_append.mp hw with hw | hw
    · exact h.warnings w hw
    · rw [List.mem_singleton.mp hw]
      exact ⟨_, rfl, span, hspan, rfl⟩
  · refine ⟨Tree.forall_stopAt hnodes (fun node hnode => ?_) _, h.warnings⟩
    exact hnode.stopAt (Nat.le_refl _) hspan.stop

theorem filling (h : b.StopsBy file k) (hspan : span.In file.content.toList) (hk : k ≤ span.start)
    (content : String) : (b.filling file content span).StopsBy file span.stop := by
  have hlater := Nat.le_trans hk hspan.le
  have hnodes : ∀ node ∈ b.tree.nodes.values, node.StopsBy file span.stop :=
    fun node hnode => (h.nodes node hnode).later hlater
  unfold Builder.filling
  split
  · exact ⟨hnodes, h.warnings⟩
  · refine ⟨Tree.forall_modify hnodes (fun node hnode => ?_) _, h.warnings⟩
    refine ⟨hnode.range, hnode.attributes, ?_⟩
    rintro range ⟨⟩
    exact ⟨span, hspan, rfl⟩

/-- A token behind all that was read is taken in. -/
theorem taking (h : b.StopsBy file k) {t : Token} (hspan : t.span.In file.content.toList)
    (hattributes : ∀ raw ∈ t.attributes, raw.In file.content.toList) (hk : k ≤ t.span.start) :
    (b.taking file t).StopsBy file t.span.stop := by
  obtain ⟨kind, span⟩ := t
  have hlater := Nat.le_trans hk hspan.le
  cases kind with
  | startTag name attributes selfClosing => exact h.opening hspan hk name hattributes selfClosing
  | endTag name => exact h.closing hspan hk name
  | text content => exact h.filling hspan hk content
  | comment => exact ⟨fun node hnode => (h.nodes node hnode).later hlater, h.warnings⟩
  | declaration => exact ⟨fun node hnode => (h.nodes node hnode).later hlater, h.warnings⟩

theorem foldl_taking {tokens : List Token} {start stop : Nat} (tiles : Tiles start tokens stop)
    (hspans : ∀ t ∈ tokens, t.span.In file.content.toList ∧
      ∀ raw ∈ t.attributes, raw.In file.content.toList) (h : b.StopsBy file start) :
    (tokens.foldl (Builder.taking file) b).StopsBy file stop := by
  induction tokens generalizing b start with
  | nil =>
    rw [show stop = start from tiles.symm]
    exact h
  | cons t tokens ih =>
    obtain ⟨⟨hspan, hattributes⟩, hrest⟩ := List.forall_mem_cons.mp hspans
    exact ih tiles.2 hrest (h.taking hspan hattributes (Nat.le_of_eq tiles.1.symm))

end Builder.StopsBy

theorem problems_located (file : SourceFile) :
    ∀ w ∈ (lex file.content).problems.map (·.located file), w.Of file := by
  intro w hw
  obtain ⟨problem, hproblem, rfl⟩ := List.mem_map.mp hw
  exact ⟨_, rfl, problem.span, problems_in_lex file.content problem hproblem, rfl⟩

/-- All that the parser says of a page is said of spans of the page. -/
theorem parse_ranges (url : Path) (contents : String) :
    ∃ parsed, parse url contents none = .ok parsed ∧
      (∀ node ∈ parsed.tree.nodes.values,
        node.StopsBy (SourceFile.ofContent url contents) (Text.byteLength contents.toList)) ∧
      ∀ w ∈ parsed.warnings, w.Of (SourceFile.ofContent url contents) := by
  let file := SourceFile.ofContent url contents
  have hstart : Builder.StopsBy file 0
      ⟨Tree.empty, [], none, ((lex contents).problems.map (·.located file)).toArray⟩ :=
    ⟨nofun, problems_located file⟩
  have hbuilt : (built url contents).StopsBy file (Text.byteLength contents.toList) := by
    apply hstart.foldl_taking (tiles_lex contents)
    intro t ht
    exact ⟨(covers_lex contents t ht).span_in, attributes_in_lex contents t ht⟩
  refine ⟨_, parse_page url contents, ?_, hbuilt.warnings⟩
  apply Tree.forall_stopAt hbuilt.nodes
  intro node hnode
  exact hnode.stopAt (Nat.le_refl _) ⟨contents.toList, [], (List.append_nil _).symm, rfl⟩

end Markup

end PageLint
