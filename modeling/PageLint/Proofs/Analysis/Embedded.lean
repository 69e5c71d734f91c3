import PageLint.Proofs.Analysis.Children
import PageLint.Proofs.Markup.Bodies

/-!
# Scripts and stylesheets of a page

Which documents are inside a page is said by its start tags alone: one for each script that
is JavaScript and has no `src`, and one for each stylesheet, in the order of the tags. This
is so for all pages, however their tags are nested.
-/

namespace PageLint

namespace Markup

/-- The attributes do not say of a script that it is something else than JavaScript. -/
def sayJavaScript (attributes : List RawAttribute) : Bool :=
  match (attributes.find? (·.name = "type")).bind (·.value) with
  | none => true
  | some value =>
    let type := Text.lower (Text.trim value.text)
    type = "" || type = "module" || Script.classicTypes.contains type

/-- The start tag of a script that is a document of its page. -/
def Token.embedsScript (t : Token) : Bool :=
  match t.kind with
  | .startTag name attributes selfClosing =>
    name = "script" && !selfClosing && attributes.all (·.name ≠ "src") && sayJavaScript attributes
  | _ => false

/-- The start tag of a stylesheet that is a document of its page. -/
def Token.embedsStyle (t : Token) : Bool :=
  match t.kind with
  | .startTag name _ selfClosing => name = "style" && !selfClosing
  | _ => false

end Markup

open Markup (Node Token startTags lex sayJavaScript)

/-- The document is the text of an element. -/
structure InlineDocument.IsTextOf (inner : InlineDocument) (language : Language) (node : Node) :
    Prop where
  language : inner.language = language
  text : node.text = some inner.contents
  textRange : ∃ range, node.textRange = some range ∧ inner.offset = range.start.toOffset

/-! ## What the scanners find in an element -/

/-- The document that the scanner of scripts finds in an element. -/
def Script.document? (base : Option String) (e : NodeId × Node) : Option InlineDocument :=
  if e.2.kind = "script" then (feature? base e.1 e.2).bind ScannedFeature.inlineDocument? else none

/-- The document that the scanner of stylesheets finds in an element. -/
def Style.document? (base : Option String) (e : NodeId × Node) : Option InlineDocument :=
  (feature? base e.1 e.2).bind ScannedFeature.inlineDocument?

section

variable {file : SourceFile} {node : Node} {t : Token} (h : node.Bodied file t)

include h

theorem Markup.Node.Bodied.attribute? (name : String) :
    node.attribute? name = (t.attributes.find? (·.name = name)).map (·.located file) := by
  rw [Node.attribute?, h.attributes, List.find?_map]
  rfl

theorem Markup.Node.Bodied.value? (name : String) : node.value? name =
    ((t.attributes.find? (·.name = name)).bind (·.value)).map (·.text) := by
  rw [Node.value?, h.attribute?]
  cases t.attributes.find? (·.name = name) with
  | none => rfl
  | some raw => rfl

theorem isSome_isModule? : (Script.isModule? node).isSome = sayJavaScript t.attributes := by
  rw [Script.isModule?, h.value?, sayJavaScript]
  cases (t.attributes.find? (·.name = "type")).bind (·.value) with
  | none => rfl
  | some value =>
    simp only [Option.map_some]
    generalize Text.lower (Text.trim value.text) = type
    by_cases hclassic : type ∈ Script.classicTypes
    · simp [hclassic]
    · by_cases hempty : type = ""
      · simp [hempty]
      · by_cases hmodule : type = "module"
        · subst hmodule
          simp [hclassic]
        · simp [hclassic, hempty, hmodule]

theorem isNone_attribute?_src : (node.attribute? "src").isNone = t.attributes.all (·.name ≠ "src") := by
  rw [h.attribute?, Option.isNone_map, Bool.eq_iff_iff, Option.isNone_iff_eq_none,
    List.find?_eq_none, List.all_eq_true]
  simp

/-- A raw text element has a text unless its tag is self-closing. -/
theorem Markup.Node.Bodied.text_cases (hraw : Markup.isRawTextElement node.kind = true)
    {selfClosing : Bool} (hkind : t.kind = .startTag node.kind t.attributes selfClosing) :
    (selfClosing = true ∧ node.text = none) ∨ (selfClosing = false ∧ ∃ text range,
      node.text = some text ∧ node.textRange = some range) := by
  have hopens : t.kind.opensRawText = !selfClosing := by
    rw [hkind, Markup.TokenKind.opensRawText, hraw, Bool.and_true]
  have htext := h.text.trans hopens
  have hrange := h.textRange.trans hopens
  cases selfClosing with
  | true => exact Or.inl ⟨rfl, Option.not_isSome_iff_eq_none.mp (ne_true_of_eq_false htext)⟩
  | false =>
    obtain ⟨text, htext⟩ := Option.isSome_iff_exists.mp htext
    obtain ⟨range, hrange⟩ := Option.isSome_iff_exists.mp hrange
    exact Or.inr ⟨rfl, text, range, htext, hrange⟩

/-- A script is a document of its page if its start tag says so. -/
theorem Script.document?_cases (base : Option String) (id : NodeId) :
    (t.embedsScript = true ∧ ∃ inner, document? base (id, node) = some inner ∧
      inner.IsTextOf .javaScript node) ∨
    (t.embedsScript = false ∧ document? base (id, node) = none) := by
  obtain ⟨selfClosing, hkind⟩ := h.kind
  have hembeds : t.embedsScript = (decide (node.kind = "script") && !selfClosing &&
      (node.attribute? "src").isNone && (isModule? node).isSome) := by
    rw [isNone_attribute?_src h, isSome_isModule? h, Token.embedsScript, hkind]
  rw [hembeds, document?]
  by_cases hscript : node.kind = "script"
  · have hraw : Markup.isRawTextElement node.kind = true := by
      rw [hscript]
      rfl
    simp only [hscript, decide_true, Bool.true_and, if_true]
    unfold feature?
    cases hsrc : node.attribute? "src" with
    | some src => exact Or.inr ⟨by simp, rfl⟩
    | none =>
      unfold internal?
      cases hmodule : isModule? node with
      | none => exact Or.inr ⟨by simp, rfl⟩
      | some isModule =>
        rcases h.text_cases hraw hkind with ⟨rfl, htext⟩ | ⟨rfl, text, range, htext, hrange⟩
        · rw [htext]
          exact Or.inr ⟨rfl, rfl⟩
        · rw [htext, hrange]
          exact Or.inl ⟨rfl, _, rfl, rfl, htext, range, hrange, rfl⟩
  · exact Or.inr ⟨by simp [hscript], by simp [hscript]⟩

/-- A stylesheet is a document of its page if its start tag says so. -/
theorem Style.document?_cases (base : Option String) (id : NodeId) :
    (t.embedsStyle = true ∧ ∃ inner, document? base (id, node) = some inner ∧
      inner.IsTextOf .css node) ∨
    (t.embedsStyle = false ∧ document? base (id, node) = none) := by
  obtain ⟨selfClosing, hkind⟩ := h.kind
  have hembeds : t.embedsStyle = (decide (node.kind = "style") && !selfClosing) := by
    rw [Token.embedsStyle, hkind]
  rw [hembeds, document?, feature?]
  by_cases hstyle : node.kind = "style"
  · have hraw : Markup.isRawTextElement node.kind = true := by
      rw [hstyle]
      rfl
    have hlink : node.kind ≠ "link" := by simp [hstyle]
    rw [if_neg hlink, if_pos hstyle, embedded?]
    simp only [hstyle, decide_true, Bool.true_and]
    rcases h.text_cases hraw hkind with ⟨rfl, htext⟩ | ⟨rfl, text, range, htext, hrange⟩
    · rw [htext]
      exact Or.inr ⟨rfl, rfl⟩
    · rw [htext, hrange]
      exact Or.inl ⟨rfl, _, rfl, rfl, htext, range, hrange, rfl⟩
  · refine Or.inr ⟨by simp [hstyle], ?_⟩
    rw [if_neg hstyle]
    split
    · split
      · rfl
      · rfl
    · rfl

end

/-! ## What is found in a page -/

theorem forall₂_filterMap_filter {α β γ : Type} {R : α → β → Prop} {S : γ → β → Prop}
    {as : List α} {bs : List β} (h : List.Forall₂ R as bs) {f : α → Option γ} {p : β → Bool}
    (hf : ∀ a b, R a b → (p b = true ∧ ∃ c, f a = some c ∧ S c b) ∨ (p b = false ∧ f a = none)) :
    List.Forall₂ S (as.filterMap f) (bs.filter p) := by
  rw [← List.filterMap_eq_filter]
  apply List.rel_filterMap _ h
  intro a b hab
  rcases hf a b hab with ⟨hp, c, hc, hS⟩ | ⟨hp, hc⟩
  · simpa [hc, hp, Option.guard] using Option.Rel.some hS
  · simp [hc, hp, Option.guard]

theorem forall₂_comp {α β γ : Type} {R : α → β → Prop} {S : β → γ → Prop} {T : α → γ → Prop}
    {as : List α} {bs : List β} {cs : List γ} (h : List.Forall₂ R as bs)
    (h' : List.Forall₂ S bs cs) (hT : ∀ a b c, R a b → S b c → T a c) : List.Forall₂ T as cs := by
  induction h generalizing cs with
  | nil =>
    cases h'
    exact .nil
  | cons hab _ ih =>
    cases h' with
    | cons hbc hrest => exact .cons (hT _ _ _ hab hbc) (ih hrest)

namespace Markup.Tree

variable {file : SourceFile} {tree : Tree} {tags : List Token}

/-- The document is the text of the element of a start tag. -/
def Embeds (tree : Tree) (tags : List Token) (language : Language) (inner : InlineDocument)
    (t : Token) : Prop :=
  ∃ (i : Nat) (node : Node), tree.nodes.values[i]? = some node ∧ tags[i]? = some t ∧
    inner.IsTextOf language node

/-- The elements and the tags that have the same place. -/
theorem forall₂_entries (h : List.Forall₂ (Node.Bodied file) tree.nodes.values tags) :
    List.Forall₂ (fun e t => e.2.Bodied file t ∧
      ∃ i : Nat, tree.nodes.values[i]? = some e.2 ∧ tags[i]? = some t) tree.entries tags := by
  have hvalues : tree.entries.map (·.2) = tree.nodes.values := by
    simp [entries, Arena.entries, Function.comp_def]
  have hplaces : List.Forall₂ (fun node t => node.Bodied file t ∧
      ∃ i : Nat, tree.nodes.values[i]? = some node ∧ tags[i]? = some t)
      (tree.entries.map (·.2)) tags := by
    rw [hvalues]
    apply List.forall₂_iff_get.mpr ⟨h.length_eq, ?_⟩
    intro i hi hi'
    exact ⟨h.get hi hi', i, List.getElem?_eq_getElem hi, List.getElem?_eq_getElem hi'⟩
  exact List.forall₂_map_left_iff.mp hplaces

/-- What a scanner finds in the elements, if the start tag of an element tells whether it
finds something there. -/
theorem forall₂_embeds (h : List.Forall₂ (Node.Bodied file) tree.nodes.values tags)
    {language : Language} {document? : NodeId × Node → Option InlineDocument} {p : Token → Bool}
    (hcases : ∀ id node t, node.Bodied file t →
      (p t = true ∧ ∃ inner, document? (id, node) = some inner ∧ inner.IsTextOf language node) ∨
      (p t = false ∧ document? (id, node) = none)) :
    List.Forall₂ (tree.Embeds tags language) (tree.entries.filterMap document?)
      (tags.filter p) := by
  apply forall₂_filterMap_filter (forall₂_entries h)
  rintro ⟨id, node⟩ t ⟨hnode, i, hi, hi'⟩
  rcases hcases id node t hnode with ⟨ht, inner, hinner, htext⟩ | hnone
  · exact Or.inl ⟨ht, inner, hinner, i, node, hi, hi', htext⟩
  · exact Or.inr hnone

end Markup.Tree

theorem Journal.inner_eq (j : Journal) :
    j.inner = j.findings.filterMap ScannedFeature.inlineDocument? := by
  rw [inner, resolution, Resolution.ofOutcomes, List.filterMap_map, List.filterMap_filterMap]
  apply List.filterMap_congr
  intro s _
  simp only [Function.comp_apply]
  cases hresolve : s.resolveAt j.parsed with
  | ok f => exact (ScannedFeature.of_resolveAt hresolve).2.1
  | error w =>
    cases s with
    | inlineDocument document range warnings => cases hresolve
    | function decl range warnings => rfl
    | reference ref range warnings => rfl
    | backreference container => rfl
    | extension tags range warnings => rfl

namespace Analyzer

open Table

theorem consult_pageScanners (d : Document) : consult d pageScanners =
    .ok [⟨(d.tree.ofKind "script").filterMap fun e => Script.feature? d.tree.baseUrl? e.1 e.2, []⟩,
      ⟨d.tree.entries.filterMap fun e => Style.feature? d.tree.baseUrl? e.1 e.2, []⟩] := rfl

/-- In a page, what its scripts give is found first, then what its stylesheets give. -/
theorem findings_page {a : Analyzer} (html : a.scannersOf .html = pageScanners) {url : Path}
    {source : String} {j : Journal} (hj : a.journal url .html source none = .ok j) :
    Markup.parse url source none = .ok ⟨j.parsed.tree, j.parsed.warnings⟩ ∧
      j.parsed.contents = source ∧ j.remarks = [] ∧
      j.findings = ((j.parsed.tree.ofKind "script").filterMap fun e =>
          Script.feature? j.parsed.tree.baseUrl? e.1 e.2) ++
        j.parsed.tree.entries.filterMap fun e =>
          Style.feature? j.parsed.tree.baseUrl? e.1 e.2 := by
  obtain ⟨hparse, hresults, -⟩ := journal_eq_ok_iff.mp hj
  rw [html, consult_pageScanners] at hresults
  rw [parse, html] at hparse
  obtain ⟨parsed, hparsed, hdocument⟩ := bind_eq_ok_iff.mp hparse
  rw [Journal.findings, Journal.remarks, ← Except.ok.inj hresults, ← Except.ok.inj hdocument]
  exact ⟨hparsed, rfl, rfl, by simp⟩

/-- In a page, its scripts are found first, then its stylesheets. -/
theorem inner_page {a : Analyzer} (html : a.scannersOf .html = pageScanners) {url : Path}
    {source : String} {j : Journal} (hj : a.journal url .html source none = .ok j) :
    Markup.parse url source none = .ok ⟨j.parsed.tree, j.parsed.warnings⟩ ∧
      j.parsed.contents = source ∧
      j.inner = j.parsed.tree.entries.filterMap (Script.document? j.parsed.tree.baseUrl?) ++
        j.parsed.tree.entries.filterMap (Style.document? j.parsed.tree.baseUrl?) := by
  obtain ⟨hparsed, hcontents, -, hfindings⟩ := findings_page html hj
  refine ⟨hparsed, hcontents, ?_⟩
  rw [Journal.inner_eq, hfindings]
  simp only [List.filterMap_append, List.filterMap_filterMap, Markup.Tree.ofKind,
    List.filterMap_filter]
  congr 1
  apply List.filterMap_congr
  rintro ⟨id, node⟩ -
  rw [Script.document?]
  by_cases hscript : node.kind = "script" <;> simp [hscript]

/-! ## Pages with nothing but the scanners of pages -/

/-- The analyzer that reads pages, but neither scripts nor stylesheets. -/
def pagesOnly (mode : ResolutionMode) : Analyzer := ⟨pageScanners, mode⟩

section

variable (mode : ResolutionMode)

theorem exists_journal_pagesOnly (url : Path) (source : String) :
    ∃ j, (pagesOnly mode).journal url .html source none = .ok j ∧
      ∀ inner ∈ j.inner, inner.language ≠ .html := by
  obtain ⟨j, hj, -, hinner⟩ := journal_page url source mode
  exact ⟨j, hj, fun inner h => (hinner inner h).1⟩

theorem journal_pagesOnly_eq (url : Path) {language : Language} (h : language ≠ .html)
    (contents : String) (offset : Option Offset) :
    (pagesOnly mode).journal url language contents offset =
      .ok ⟨⟨url, language, contents, Markup.Tree.empty, offset, [], []⟩, []⟩ := by
  have hscanners : (pagesOnly mode).scannersOf language = [] := by
    cases language with
    | html => exact absurd rfl h
    | javaScript => rfl
    | css => rfl
  rw [journal_eq_ok_iff, parse, hscanners]
  exact ⟨rfl, rfl, List.forall_mem_nil _⟩

theorem journal_pagesOnly_of_ne_html (url : Path) {language : Language} (h : language ≠ .html)
    (contents : String) (offset : Option Offset) :
    ∃ j, (pagesOnly mode).journal url language contents offset = .ok j ∧ j.inner = [] :=
  ⟨_, journal_pagesOnly_eq mode url h contents offset, rfl⟩

/-- The scripts and stylesheets of a page can be added, and nothing is found in them. -/
theorem exists_addInline_pagesOnly {depth : Nat} (positive : 0 < depth) {t : Table}
    {c : DocumentId} {outer : Document} (houter : t.get? c = some outer)
    {children : List InlineDocument} (h : ∀ child ∈ children, child.language ≠ .html) :
    ∃ t', (pagesOnly mode).addInline depth t c children = .ok t' ∧
      t'.slots.size = t.slots.size + children.length ∧ t'.get? c = some outer := by
  obtain ⟨depth, rfl⟩ := Nat.exists_eq_add_one.mpr positive
  induction children generalizing t with
  | nil => exact ⟨t, rfl, rfl, houter⟩
  | cons child children ih =>
    obtain ⟨hchild, hrest⟩ := List.forall_mem_cons.mp h
    obtain ⟨j, hj, hinner⟩ := journal_pagesOnly_of_ne_html mode outer.url hchild
      child.contents (some child.offset)
    obtain ⟨t₁, id, hinsert⟩ : ∃ t₁ id, t.insertInline c (j.document (some c)) = .ok (t₁, id) :=
      ⟨_, _, insertInline_of_contains _ (contains_of_get? houter)⟩
    have hadd : (pagesOnly mode).addChild depth c t child = .ok t₁ := by
      refine (addChild_eq_ok houter).mpr ⟨j, t₁, id, hj, hinsert, ?_⟩
      rw [hinner, addInline_nil]
    obtain ⟨t', ht', hsize, hget⟩ := ih (get?_insertInline_of_get? hinsert houter) hrest
    refine ⟨t', ?_, ?_, hget⟩
    · rw [addInline_cons]
      exact bind_eq_ok_iff.mpr ⟨t₁, hadd, ht'⟩
    · rw [hsize, size_slots_insertInline hinsert, List.length_cons]
      omega

end

end Analyzer

namespace Table

/-- The document is the text of the element of a start tag of its page. -/
def Embeds (t : Table) (page : Document) (language : Language) (id : DocumentId)
    (tag : Token) : Prop :=
  ∃ (d : Document) (i : Nat) (node : Node) (range : SourceRange), t.get? id = some d ∧
    page.tree.nodes.values[i]? = some node ∧ (startTags (lex page.contents).tokens)[i]? = some tag ∧
      d.language = language ∧ node.text = some d.contents ∧ node.textRange = some range ∧
        d.offset = some range.start.toOffset

theorem embeds_of_isChild {t : Table} {page : Document} {p id : DocumentId} {language : Language}
    {inner : InlineDocument} {tag : Token} (hchild : t.IsChild p id inner)
    (h : page.tree.Embeds (startTags (lex page.contents).tokens) language inner tag) :
    t.Embeds page language id tag := by
  obtain ⟨s, hs, holds⟩ := hchild
  obtain ⟨i, node, hi, hi', htext⟩ := h
  obtain ⟨range, hrange, hoffset⟩ := htext.textRange
  refine ⟨s.document, i, node, range, get?_of_slot? hs, hi, hi', ?_, ?_, hrange, ?_⟩
  · rw [holds.language, htext.language]
  · rw [holds.contents, htext.text]
  · rw [holds.offset, hoffset]

end Table

namespace Page

open Analyzer

theorem filter_startTags {p : Token → Bool}
    (hp : ∀ t, p t = true → t.embedsScript = true ∨ t.embedsStyle = true) (tokens : List Token) :
    (startTags tokens).filter p = tokens.filter p := by
  rw [startTags, List.filter_filter]
  apply List.filter_congr
  intro t _
  cases ht : p t with
  | false => rfl
  | true =>
    have hembeds := hp t ht
    obtain ⟨kind, span⟩ := t
    cases kind with
    | startTag _ _ _ => rfl
    | _ => rcases hembeds with h | h <;> cases h

theorem length_embeds_le (tokens : List Token) :
    (tokens.filter Token.embedsScript).length + (tokens.filter Token.embedsStyle).length ≤
      (startTags tokens).length := by
  rw [← filter_startTags fun t => Or.inl, ← filter_startTags fun t => Or.inr]
  have hstyle : ∀ t ∈ startTags tokens, t.embedsStyle = true → (!t.embedsScript) = true := by
    intro t _ h
    obtain ⟨kind, span⟩ := t
    cases kind
    case startTag => simp_all [Token.embedsStyle, Token.embedsScript]
    all_goals rfl
  have hle := List.countP_mono_left hstyle
  have hsplit := List.length_eq_length_filter_add (l := startTags tokens) Token.embedsScript
  simp only [List.countP_eq_length_filter] at hle
  omega

/-- What is found in a page is what its start tags embed. -/
theorem exists_inner_page (url : Path) (source : String) (mode : ResolutionMode)
    (fits : (startTags (lex source).tokens).length ≤ UInt32.size) :
    ∃ j scripts styles, (pagesOnly mode).journal url .html source none = .ok j ∧
      j.parsed.contents = source ∧ j.inner = scripts ++ styles ∧
      (∀ inner ∈ j.inner, inner.language ≠ .html) ∧
      List.Forall₂ (j.parsed.tree.Embeds (startTags (lex source).tokens) .javaScript) scripts
        ((lex source).tokens.filter Token.embedsScript) ∧
      List.Forall₂ (j.parsed.tree.Embeds (startTags (lex source).tokens) .css) styles
        ((lex source).tokens.filter Token.embedsStyle) := by
  obtain ⟨j, hj, hlanguages⟩ := exists_journal_pagesOnly mode url source
  obtain ⟨hparse, hcontents, hinner⟩ := inner_page (a := pagesOnly mode) rfl hj
  obtain ⟨parsed, hparsed, bodied⟩ := Markup.bodied_parse url source fits
  cases hparse.symm.trans hparsed
  have hscripts := Markup.Tree.forall₂_embeds bodied
    fun id node t hnode => Script.document?_cases hnode j.parsed.tree.baseUrl? id
  have hstyles := Markup.Tree.forall₂_embeds bodied
    fun id node t hnode => Style.document?_cases hnode j.parsed.tree.baseUrl? id
  rw [filter_startTags fun t => Or.inl] at hscripts
  rw [filter_startTags fun t => Or.inr] at hstyles
  exact ⟨j, _, _, hj, hcontents, hinner, hlanguages, hscripts, hstyles⟩

/-- The documents directly inside a page are one of JavaScript for each start tag of a script
that does not refer to a file and is of no other type, in the order of the tags, and then one
of CSS for each start tag of a stylesheet, and no others. Each is the text of the element of
its tag. -/
theorem embedded_documents (url : Path) (source : String) (mode : ResolutionMode)
    (few : (startTags (lex source).tokens).length < UInt32.size) :
    ∃ page root scripts styles, analyze url source mode [] = .ok page ∧
      page.table.get? page.root = some root ∧ root.contents = source ∧
      page.table.childrenOf page.root = scripts ++ styles ∧
      List.Forall₂ (page.table.Embeds root .javaScript) scripts
        ((lex source).tokens.filter Token.embedsScript) ∧
      List.Forall₂ (page.table.Embeds root .css) styles
        ((lex source).tokens.filter Token.embedsStyle) := by
  obtain ⟨j, scripts, styles, hj, hcontents, hinner, hlanguages, hscripts, hstyles⟩ :=
    exists_inner_page url source mode (Nat.le_of_lt few)
  -- the page alone is put into the table, and then what was found in it
  let start := (Table.empty.insert (j.document none)).1
  have hplace : start.slot? Table.empty.nextId = some ⟨j.document none, none, []⟩ := by
    rw [Table.slot?_insert Table.empty (by decide), if_pos rfl]
  have hroot : start.get? Table.empty.nextId = some (j.document none) :=
    Table.get?_of_slot? hplace
  obtain ⟨t, hadd, hsize, -⟩ := exists_addInline_pagesOnly mode nestingLimit_pos hroot hlanguages
  have hfew : t.slots.size ≤ UInt32.size := by
    have hcount := length_embeds_le (lex source).tokens
    rw [← hscripts.length_eq, ← hstyles.length_eq] at hcount
    rw [hsize, Table.size_slots_insert, Table.size_slots_empty, hinner, List.length_append]
    omega
  obtain ⟨s, ids, hs, hgrown, hids⟩ :=
    (fills_addInline (Table.contains_of_slot? hplace) hadd hfew).grown
  cases hplace.symm.trans hs
  rw [hinner] at hids
  have hembeds : ∀ language id inner tag, t.IsChild Table.empty.nextId id inner →
      j.parsed.tree.Embeds (startTags (lex source).tokens) language inner tag →
      t.Embeds (j.document none) language id tag := by
    intro language id inner tag hchild h
    apply Table.embeds_of_isChild hchild
    rw [show (j.document none).contents = source from hcontents]
    exact h
  refine ⟨⟨t, Database.inMemory.add (SourceFile.ofContent url source), Table.empty.nextId⟩,
    j.document none, ids.take scripts.length, ids.drop scripts.length, ?_,
    Table.get?_of_slot? hgrown, hcontents, ?_, ?_, ?_⟩
  · exact analyze_of_addInline hj hadd
  · rw [Table.childrenOf, hgrown, List.take_append_drop]
    rfl
  · exact forall₂_comp (List.forall₂_take_append _ _ _ hids) hscripts (hembeds .javaScript)
  · exact forall₂_comp (List.forall₂_drop_append _ _ _ hids) hstyles (hembeds .css)

/-- A page with scripts and stylesheets that are not closed, not nested and not to be read. -/
def mixedPage : String :=
  "<style>p {}</style><script TYPE=' Module '>f()</script><b><script src=x.js>g()</script></i>\n" ++
    "<style/><script/></b><script type=text/plain>h()</script><script type>i()</scripts>"

theorem embedded_documents_mixedPage :
    (startTags (lex mixedPage).tokens).length < UInt32.size ∧
      ∃ page root scripts styles, analyze ⟨"a.html"⟩ mixedPage .parallel [] = .ok page ∧
        page.table.get? page.root = some root ∧
        page.table.childrenOf page.root = scripts ++ styles ∧ scripts.length = 2 ∧
        styles.length = 1 ∧ List.Forall₂ (page.table.Embeds root .javaScript) scripts
          ((lex mixedPage).tokens.filter Token.embedsScript) := by
  -- all in one, so that the page is cut once
  have facts : (startTags (lex mixedPage).tokens).length < UInt32.size ∧
      ((lex mixedPage).tokens.filter Token.embedsScript).length = 2 ∧
      ((lex mixedPage).tokens.filter Token.embedsStyle).length = 1 := by decide +kernel
  obtain ⟨few, hscripts, hstyles⟩ := facts
  obtain ⟨page, root, scripts, styles, hpage, hroot, -, hchildren, hjs, hcss⟩ :=
    embedded_documents ⟨"a.html"⟩ mixedPage .parallel few
  exact ⟨few, page, root, scripts, styles, hpage, hroot, hchildren,
    hjs.length_eq.trans hscripts, hcss.length_eq.trans hstyles, hjs⟩

end Page

end PageLint
