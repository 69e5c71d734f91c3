import PageLint.Proofs.Analysis.Nesting
import PageLint.Proofs.Markup.RawContent
import PageLint.Proofs.Scanner.Functions

/-!
# Documents inside a page

The documents inside a page stand in it where their offset says, and what is found
in them is found at its place in the page.
-/

namespace PageLint

open FunctionKeyword (Site sites isSite nameAt spanAt)

/-- The document stands in a file where its offset says, and is no markup. -/
def InlineDocument.StandsIn (file : SourceFile) (inner : InlineDocument) : Prop :=
  inner.language ≠ .html ∧ ∃ k, Text.StandsAt file.content.toList k inner.contents.toList ∧
    inner.offset = (file.positionAt k).toOffset

/-- The finding was made in a file; a document that was found stands there. -/
structure ScannedFeature.Of (file : SourceFile) (s : ScannedFeature) : Prop where
  range_file {range : SourceRange} (h : s.range? = some range) : range.file = file.path
  standsIn {inner : InlineDocument} (h : s.inlineDocument? = some inner) : inner.StandsIn file

theorem ScannedFeature.Of.isFoundIn {file : SourceFile} {s : ScannedFeature} (h : s.Of file)
    {d : Document} (hurl : d.url = file.path) : s.isFoundIn d := by
  apply (Option.all_eq_true _ _).mpr
  intro range hrange
  apply decide_eq_true
  rw [h.range_file hrange, hurl]
  exact Path.Same.refl _

theorem ScannedFeature.of_reference {file : SourceFile} {range : SourceRange}
    (h : range.file = file.path) (ref : ImportRef) (warnings : List Warning) :
    (ScannedFeature.reference ref range warnings).Of file where
  range_file := by
    rintro range ⟨⟩
    exact h
  standsIn := nofun

theorem ScannedFeature.of_inlineDocument {file : SourceFile} {node : Markup.Node}
    (hnode : node.Of file) {text : String} {range : SourceRange} (htext : node.text = some text)
    (hrange : node.textRange = some range) {inner : InlineDocument}
    (language : inner.language ≠ .html) (contents : inner.contents = text)
    (offset : inner.offset = range.start.toOffset) :
    (ScannedFeature.inlineDocument inner range []).Of file := by
  obtain ⟨k, hk, rfl⟩ := hnode.text htext hrange
  constructor
  · rintro range ⟨⟩
    rfl
  · rintro inner ⟨⟩
    exact ⟨language, k, contents ▸ hk, offset⟩

theorem Script.of_feature? {file : SourceFile} {node : Markup.Node} (hnode : node.Of file)
    {base : Option String} {id : NodeId} {s : ScannedFeature} (h : feature? base id node = some s) :
    s.Of file := by
  unfold feature? at h
  split at h
  · cases h
    exact ScannedFeature.of_reference hnode.range_file _ _
  · unfold internal? at h
    split at h
    · next htext hrange =>
      cases h
      exact ScannedFeature.of_inlineDocument hnode htext hrange nofun rfl rfl
    · cases h

theorem Style.of_feature? {file : SourceFile} {node : Markup.Node} (hnode : node.Of file)
    {base : Option String} {id : NodeId} {s : ScannedFeature} (h : feature? base id node = some s) :
    s.Of file := by
  unfold feature? at h
  split at h
  · split at h
    · cases h
      exact ScannedFeature.of_reference hnode.range_file _ _
    · cases h
  · split at h
    · unfold embedded? at h
      split at h
      · next htext hrange =>
        cases h
        exact ScannedFeature.of_inlineDocument hnode htext hrange nofun rfl rfl
      · cases h
    · cases h

theorem FunctionKeyword.Site.foundAt_of (file : SourceFile) (k : Nat) (site : Site) :
    (site.foundAt file k).Of file where
  range_file := by
    rintro range ⟨⟩
    rfl
  standsIn := by
    intro inner h
    cases h

namespace Analyzer

/-- The analyzer of pages with functions in their scripts. -/
def withFunctions (mode : ResolutionMode) : Analyzer :=
  ⟨pageScanners ++ [FunctionKeyword.scanner], mode⟩

theorem scannersOf_withFunctions (mode : ResolutionMode) (language : Language) :
    (withFunctions mode).scannersOf language = match language with
      | .html => [Script.scanner, Style.scanner]
      | .javaScript => [FunctionKeyword.scanner]
      | .css => [] := by
  cases language <;> rfl

/-- A page is read, and all that is found in it is of it. -/
theorem journal_page (url : Path) (source : String) (mode : ResolutionMode) :
    ∃ j, (withFunctions mode).journal url .html source none = .ok j ∧ j.parsed.offset = none ∧
      ∀ inner ∈ j.inner, inner.StandsIn (SourceFile.ofContent url source) := by
  obtain ⟨parsed, hparse, htree⟩ := Markup.parse_of_page url source
  let d : Document := ⟨url, .html, source, parsed.tree, none, [], parsed.warnings⟩
  let scripts := (d.tree.ofKind "script").filterMap fun e =>
    Script.feature? d.tree.baseUrl? e.1 e.2
  let styles := d.tree.entries.filterMap fun e => Style.feature? d.tree.baseUrl? e.1 e.2
  let j : Journal := ⟨d, [⟨scripts, []⟩, ⟨styles, []⟩]⟩
  have hfindings : ∀ s ∈ j.findings, s.Of (SourceFile.ofContent url source) := by
    intro s hs
    change s ∈ scripts ++ (styles ++ []) at hs
    rw [List.append_nil] at hs
    rcases List.mem_append.mp hs with hs | hs
    · obtain ⟨⟨id, node⟩, he, heq⟩ := List.mem_filterMap.mp hs
      have hnode := Arena.mem_values_of_mem_entries (List.mem_filter.mp he).1
      exact Script.of_feature? (htree node hnode) heq
    · obtain ⟨⟨id, node⟩, he, heq⟩ := List.mem_filterMap.mp hs
      exact Style.of_feature? (htree node (Arena.mem_values_of_mem_entries he)) heq
  refine ⟨j, journal_eq_ok_iff.mpr
    ⟨?_, ?_, fun s hs => (hfindings s hs).isFoundIn rfl⟩, rfl, ?_⟩
  · change Except.bind (Markup.parse url source none) _ = _
    rw [hparse]
    rfl
  · rw [scannersOf_withFunctions]
    rfl
  · intro inner hinner
    obtain ⟨s, hs, heq⟩ := Journal.mem_findings_of_mem_inner hinner
    exact (hfindings s hs).standsIn heq

/-- What is read of a text that stands at byte `k` of a file. -/
structure ReadAt (file : SourceFile) (k : Nat) (j : Journal) : Prop where
  url : j.parsed.url = file.path
  stands : Text.StandsAt file.content.toList k j.parsed.contents.toList
  offset : j.parsed.offset = some (file.positionAt k).toOffset
  warnings : j.parsed.warnings = []
  remarks : j.remarks = []
  findings : j.findings =
    if j.parsed.language = .javaScript
    then (sites j.parsed.contents.toList).map (·.foundAt file k) else []

theorem inner_eq_nil {j : Journal} (h : ∀ s ∈ j.findings, s.inlineDocument? = none) :
    j.inner = [] := by
  apply List.eq_nil_iff_forall_not_mem.mpr
  intro inner hinner
  obtain ⟨s, hs, heq⟩ := Journal.mem_findings_of_mem_inner hinner
  rw [h s hs] at heq
  cases heq

theorem parse_embedded (mode : ResolutionMode) (url : Path) {language : Language}
    (h : language ≠ .html) (contents : String) (offset : Option Offset) :
    (withFunctions mode).parse url language contents offset =
      .ok ⟨url, language, contents, Markup.Tree.empty, offset, [], []⟩ := by
  rw [parse, scannersOf_withFunctions]
  cases language with
  | html => exact absurd rfl h
  | javaScript => rfl
  | css => rfl

/-- A text that stands in a file is read at its place there, and nothing is inside it. -/
theorem journal_inline {file : SourceFile}
    (short : Text.byteLength file.content.toList < UInt32.size) (mode : ResolutionMode)
    {inner : InlineDocument} (h : inner.StandsIn file) :
    ∃ j, (withFunctions mode).journal file.path inner.language inner.contents
      (some inner.offset) = .ok j ∧ j.inner = [] ∧ ∃ k, ReadAt file k j := by
  obtain ⟨language, contents, offset, isModule, node⟩ := inner
  obtain ⟨hlanguage, k, stands, hoffset⟩ := h
  change offset = _ at hoffset
  subst hoffset
  let d : Document := ⟨file.path, language, contents, Markup.Tree.empty,
    some (file.positionAt k).toOffset, [], []⟩
  have hparse := parse_embedded mode file.path hlanguage contents d.offset
  have hscanners := scannersOf_withFunctions mode language
  cases language with
  | html => exact absurd rfl hlanguage
  | css =>
    refine ⟨⟨d, []⟩, journal_eq_ok_iff.mpr
      ⟨hparse, ?_, fun s hs => absurd hs List.not_mem_nil⟩, rfl, k,
      ⟨rfl, stands, rfl, rfl, rfl, rfl⟩⟩
    rw [hscanners]
    rfl
  | javaScript =>
    have hscan := FunctionKeyword.scan_embedded short (d := d) rfl rfl stands
    let result : ScanResult := ⟨(sites contents.toList).map (·.foundAt file k), []⟩
    have hfindings : (Journal.mk d [result]).findings =
        (sites contents.toList).map (·.foundAt file k) := List.append_nil _
    have hfound : ∀ s ∈ (Journal.mk d [result]).findings, s.Of file ∧ s.inlineDocument? = none := by
      intro s hs
      rw [hfindings] at hs
      obtain ⟨site, -, rfl⟩ := List.mem_map.mp hs
      exact ⟨site.foundAt_of file k, rfl⟩
    refine ⟨⟨d, [result]⟩, journal_eq_ok_iff.mpr
      ⟨hparse, ?_, fun s hs => (hfound s hs).1.isFoundIn rfl⟩,
      inner_eq_nil fun s hs => (hfound s hs).2, k, ⟨rfl, stands, rfl, rfl, rfl, hfindings⟩⟩
    rw [hscanners]
    change Except.bind (FunctionKeyword.scanner.scan d) _ = _
    rw [hscan]
    rfl

theorem journals_inline {file : SourceFile}
    (short : Text.byteLength file.content.toList < UInt32.size) (mode : ResolutionMode)
    {depth : Nat} (positive : 0 < depth) {children : List InlineDocument}
    (h : ∀ inner ∈ children, inner.StandsIn file) :
    ∃ js, (withFunctions mode).journals file.path depth children = .ok js ∧
      ∀ j ∈ js, ∃ k, ReadAt file k j := by
  obtain ⟨depth, rfl⟩ := Nat.exists_eq_add_one.mpr positive
  induction children with
  | nil => exact ⟨[], rfl, nofun⟩
  | cons child children ih =>
    obtain ⟨hchild, hrest⟩ := List.forall_mem_cons.mp h
    obtain ⟨j, hj, hinner, hread⟩ := journal_inline short mode hchild
    obtain ⟨js, hjs, hreads⟩ := ih hrest
    refine ⟨j :: js, ?_, List.forall_mem_cons.mpr ⟨hread, hreads⟩⟩
    rw [journals_cons, hj, hjs, withInner]
    change Except.bind (Except.bind (journals _ _ _ j.inner) _) _ = _
    rw [hinner, journals_nil]
    rfl

end Analyzer

/-- What becomes of a function of a script that stands at byte `k` of a file. -/
def FunctionKeyword.Site.resolvedAt (file : SourceFile) (k : Nat) (site : Site) : Resolved :=
  FunctionDecl.resolve ⟨site.name, none, none, [], none, none⟩
    (file.rangeOf ⟨k + site.span.start, k + site.span.stop⟩) []

theorem Analyzer.ReadAt.resolution {file : SourceFile} {k : Nat} {j : Journal}
    (h : Analyzer.ReadAt file k j) : j.resolution =
      if j.parsed.language = .javaScript
      then .ofOutcomes ((sites j.parsed.contents.toList).map (·.resolvedAt file k))
      else ⟨[], []⟩ := by
  rw [Journal.resolution, h.findings]
  split
  · rw [List.map_map]
    rfl
  · rfl

/-- The offset of a boundary tells it from all others. -/
theorem SourceFile.offset_unique {file : SourceFile}
    (short : Text.byteLength file.content.toList < UInt32.size) {k : Nat}
    (hk : Text.IsBoundary file.content.toList k) (j : Nat) :
    Text.IsBoundary file.content.toList j ∧
      (file.positionAt j).toOffset = (file.positionAt k).toOffset ↔ j = k := by
  constructor
  · rintro ⟨hj, heq⟩
    obtain ⟨hline, hcolumn⟩ := Offset.mk.inj heq
    apply SourceFile.positionAt_inj short hj hk
    cases hj' : file.positionAt j
    cases hk' : file.positionAt k
    rw [hj'] at hline hcolumn
    rw [hk'] at hline hcolumn
    exact congr (congrArg Position.mk hline) hcolumn
  · rintro rfl
    exact ⟨hk, rfl⟩

namespace Page

/-- A page that is not too long is read with all scripts inside it, each at its place. -/
theorem journals_read (url : Path) (source : String) (mode : ResolutionMode)
    (short : Text.byteLength source.toList < UInt32.size) :
    ∃ j js, journals url source mode [FunctionKeyword.scanner] = .ok (j :: js) ∧
      (Analyzer.withFunctions mode).journal url .html source none = .ok j ∧
      ∀ j' ∈ js, ∃ k, Analyzer.ReadAt (SourceFile.ofContent url source) k j' := by
  obtain ⟨j, hj, -, hinner⟩ := Analyzer.journal_page url source mode
  have hshort : Text.byteLength (SourceFile.ofContent url source).content.toList < UInt32.size :=
    short
  obtain ⟨js, hjs, hreads⟩ := Analyzer.journals_inline hshort mode Analyzer.nestingLimit_pos hinner
  exact ⟨j, js, journals_of_inner hj hjs, hj, hreads⟩

/-- The documents of a page that is not too long are made of what is read. -/
theorem analyze_read (url : Path) (source : String) (mode : ResolutionMode)
    (short : Text.byteLength source.toList < UInt32.size) :
    ∃ page j js, analyze url source mode [FunctionKeyword.scanner] = .ok page ∧
      (Analyzer.withFunctions mode).journal url .html source none = .ok j ∧
      (∀ j' ∈ js, ∃ k, Analyzer.ReadAt (SourceFile.ofContent url source) k j') ∧
      List.Forall₂ Analyzer.MadeOf (page.table.entries.map (·.2)) (j :: js) := by
  obtain ⟨j, js, hread, hj, hreads⟩ := journals_read url source mode short
  have hanalyze := analyze_of_journals url source mode [FunctionKeyword.scanner]
  rw [hread] at hanalyze
  obtain ⟨page, hpage, made⟩ := hanalyze
  exact ⟨page, j, js, hpage, hj, hreads, made⟩

/-- Every document inside a page stands at the one boundary of the page that its offset
is the position of, and the functions of a script are found there: the range of one
at bytes `a` to `b` of the script is that of bytes `k + a` to `k + b` of the page. -/
theorem inline_coordinates (url : Path) (source : String) (mode : ResolutionMode)
    (short : Text.byteLength source.toList < UInt32.size) :
    ∃ page, analyze url source mode [FunctionKeyword.scanner] = .ok page ∧
      ∀ id d offset, (id, d) ∈ page.table.entries → d.offset = some offset →
        let file := SourceFile.ofContent url source
        ∃ k, (∀ j, Text.IsBoundary source.toList j ∧ (file.positionAt j).toOffset = offset ↔
            j = k) ∧
          Text.StandsAt source.toList k d.contents.toList ∧
          (d.language = .javaScript →
            (∀ site, site ∈ sites d.contents.toList ↔ ∃ pre post, d.contents.toList = pre ++ post ∧
              isSite pre.getLast? post ∧
                site = ⟨nameAt post, spanAt (Text.byteLength pre) post⟩) ∧
            let found := Resolution.ofOutcomes
              ((sites d.contents.toList).map (·.resolvedAt file k))
            (∃ container, d.features = backreferenceFeature container :: found.features) ∧
              d.warnings = found.warnings) := by
  let file := SourceFile.ofContent url source
  obtain ⟨page, j, js, hpage, hj, hreads, made⟩ := analyze_read url source mode short
  obtain ⟨-, hoffset⟩ := Analyzer.parsed_of_journal hj
  have hshort : Text.byteLength file.content.toList < UInt32.size := short
  refine ⟨page, hpage, ?_⟩
  intro id d offset hd hd'
  obtain ⟨j', hj', container, rfl, hcontainer⟩ :=
    Analyzer.exists_journal_of_mem made (List.mem_map_of_mem (f := (·.2)) hd)
  change j'.parsed.offset = some offset at hd'
  rcases List.mem_cons.mp hj' with rfl | hj'
  · rw [hoffset] at hd'
    cases hd'
  · obtain ⟨k, hk⟩ := hreads j' hj'
    have heq : offset = (file.positionAt k).toOffset := Option.some.inj (hd'.symm.trans hk.offset)
    subst heq
    refine ⟨k, SourceFile.offset_unique hshort hk.stands.isBoundary, hk.stands, ?_⟩
    intro hlanguage
    have hresolution := hk.resolution
    rw [if_pos (show j'.parsed.language = .javaScript from hlanguage)] at hresolution
    rw [hd'] at hcontainer
    obtain ⟨c, rfl⟩ := Option.isSome_iff_exists.mp hcontainer
    refine ⟨fun site => FunctionKeyword.mem_sites_iff, ⟨c, ?_⟩, ?_⟩
    · change backreferenceFeature c :: j'.resolution.features = _
      rw [hresolution]
      rfl
    · change j'.parsed.warnings ++ j'.remarks ++ j'.resolution.warnings = _
      rw [hk.warnings, hk.remarks, hresolution]
      rfl

/-- A page with a script after a line that ends in a carriage return. -/
def carriageReturnPage : String := "<p>é</p>\r\n<script>function é() {}</script>"

theorem offsets_carriageReturnPage :
    (analyze ⟨"a.html"⟩ carriageReturnPage .parallel [FunctionKeyword.scanner]).map
      (·.table.entries.map (·.2.offset)) = .ok [none, some ⟨1, 8⟩] := by
  decide +kernel

theorem inline_coordinates_carriageReturnPage :
    ∃ page, analyze ⟨"a.html"⟩ carriageReturnPage .parallel [FunctionKeyword.scanner] = .ok page ∧
      ∃ id d k, (id, d) ∈ page.table.entries ∧ d.offset = some ⟨1, 8⟩ ∧
        Text.StandsAt carriageReturnPage.toList k d.contents.toList := by
  obtain ⟨page, hpage, hall⟩ := inline_coordinates ⟨"a.html"⟩ carriageReturnPage .parallel
    (by decide +kernel)
  obtain ⟨page', hpage', hoffsets⟩ := map_eq_ok_iff.mp offsets_carriageReturnPage
  obtain rfl : page = page' := Except.ok.inj (hpage.symm.trans hpage')
  have hmem : some ⟨1, 8⟩ ∈ page.table.entries.map (·.2.offset) := by
    rw [hoffsets]
    exact List.mem_cons_of_mem _ List.mem_cons_self
  obtain ⟨⟨id, d⟩, hd, hoffset⟩ := List.mem_map.mp hmem
  obtain ⟨k, -, stands, -⟩ := hall id d _ hd hoffset
  exact ⟨page, hpage, id, d, k, hd, hoffset, stands⟩

end Page

end PageLint
