import PageLint.Proofs.Analysis.Findings
import PageLint.Proofs.Analysis.Shown
import PageLint.Proofs.Markup.Names

/-!
# A page is reported on a line for each warning

The parser quotes names, which have no line feeds; all else that is said of a page are fixed
texts. So each warning about a page whose url fits on a line does so as well.
-/

namespace PageLint

/-- All that is said about the finding, and of what is wrong with it, fits on a line each. -/
structure ScannedFeature.OneLine (s : ScannedFeature) : Prop where
  warnings : ∀ w ∈ s.warnings, w.OneLine
  errors {d : Document} {w : Warning} (h : s.resolveAt d = .error w) : w.OneLine

namespace ScannedFeature

theorem oneLine_function (decl : FunctionDecl) (range : SourceRange) :
    (ScannedFeature.function decl range []).OneLine := by
  refine ⟨List.forall_mem_nil _, ?_⟩
  intro d w hw
  change FunctionDecl.resolve decl range [] = .error w at hw
  unfold FunctionDecl.resolve at hw
  split at hw
  · cases hw
    exact ⟨(by decide : Text.OneLine "invalid-function-name"),
      (by decide : Text.OneLine "function declaration has no name")⟩
  · cases hw

theorem oneLine_reference {ref : ImportRef} (htype : Text.OneLine ref.type) (range : SourceRange)
    {warnings : List Warning} (hwarnings : ∀ w ∈ warnings, w.OneLine) :
    (ScannedFeature.reference ref range warnings).OneLine := by
  refine ⟨hwarnings, ?_⟩
  intro d w hw
  change ImportRef.resolve ref d.url range warnings = .error w at hw
  unfold ImportRef.resolve at hw
  split at hw
  · cases hw
    refine ⟨(by decide : Text.OneLine "empty-import-url"), ?_⟩
    exact Text.oneLine_append.mpr
      ⟨Text.oneLine_append.mpr ⟨(by decide : Text.OneLine ""), htype⟩, by decide⟩
  · cases hw

theorem oneLine_inlineDocument (inner : InlineDocument) (range : SourceRange) :
    (ScannedFeature.inlineDocument inner range []).OneLine :=
  ⟨List.forall_mem_nil _, fun h => by cases h⟩

end ScannedFeature

theorem Script.oneLine_ignoredContent (node : Markup.Node) :
    ∀ w ∈ ignoredContent node, w.OneLine := by
  unfold ignoredContent
  split
  · split
    · exact List.forall_mem_nil _
    · exact List.forall_mem_singleton.mpr ⟨(by decide : Text.OneLine "ignored-script-content"),
        (by decide : Text.OneLine "inline content of a script with a src attribute is ignored")⟩
  · exact List.forall_mem_nil _

theorem Script.oneLine_feature? {base : Option String} {id : NodeId} {node : Markup.Node}
    {s : ScannedFeature} (h : feature? base id node = some s) : s.OneLine := by
  unfold feature? at h
  split at h
  · cases h
    exact ScannedFeature.oneLine_reference (by decide : Text.OneLine "html-script") _
      (oneLine_ignoredContent node)
  · unfold internal? at h
    split at h
    · cases h
      exact ScannedFeature.oneLine_inlineDocument _ _
    · cases h

theorem Style.oneLine_feature? {base : Option String} {id : NodeId} {node : Markup.Node}
    {s : ScannedFeature} (h : feature? base id node = some s) : s.OneLine := by
  unfold feature? at h
  split at h
  · split at h
    · cases h
      exact ScannedFeature.oneLine_reference (by decide : Text.OneLine "html-style") _
        (List.forall_mem_nil _)
    · cases h
  · split at h
    · unfold embedded? at h
      split at h
      · cases h
        exact ScannedFeature.oneLine_inlineDocument _ _
      · cases h
    · cases h

namespace Analyzer

variable {file : SourceFile} {k : Nat}

theorem oneLine_journal_page {url : Path} {source : String} {mode : ResolutionMode} {j : Journal}
    (h : (withFunctions mode).journal url .html source none = .ok j) :
    ∀ w ∈ j.produced, w.OneLine := by
  have hfindings : ∀ s ∈ j.findings, s.OneLine := by
    intro s hs
    obtain ⟨scanner, hscanner, d, r, hscan, hr⟩ := exists_scanner_of_journal h hs
    rw [scannersOf_withFunctions] at hscanner
    simp only [List.mem_cons, List.not_mem_nil, or_false] at hscanner
    rcases hscanner with rfl | rfl
    · cases hscan
      obtain ⟨e, -, heq⟩ := List.mem_filterMap.mp hr
      exact Script.oneLine_feature? heq
    · cases hscan
      obtain ⟨e, -, heq⟩ := List.mem_filterMap.mp hr
      exact Style.oneLine_feature? heq
  have hparsed : ∀ w ∈ j.parsed.warnings, w.OneLine := by
    obtain ⟨hparse, -, -⟩ := journal_eq_ok_iff.mp h
    obtain ⟨parsed, hmarkup, hd⟩ := bind_eq_ok_iff.mp hparse
    rw [← Except.ok.inj hd]
    exact Markup.oneLine_parse hmarkup
  exact Journal.forall_mem_produced hparsed
    ((placed_journal_page h).remarks ▸ List.forall_mem_nil _)
    (fun s hs => (hfindings s hs).warnings) fun s hs _ => (hfindings s hs).errors

theorem ReadAt.oneLine {j : Journal} (h : ReadAt file k j) : ∀ w ∈ j.produced, w.OneLine := by
  have hfindings : ∀ s ∈ j.findings, s.OneLine := by
    rw [h.findings]
    split
    · intro s hs
      obtain ⟨site, -, rfl⟩ := List.mem_map.mp hs
      exact ScannedFeature.oneLine_function _ _
    · exact List.forall_mem_nil _
  exact Journal.forall_mem_produced (h.warnings ▸ List.forall_mem_nil _)
    (h.remarks ▸ List.forall_mem_nil _) (fun s hs => (hfindings s hs).warnings)
    fun s hs _ => (hfindings s hs).errors

end Analyzer

namespace Page

/-- In one-line verbosity a page is reported on a line for each warning: the lines written are
the summaries of the warnings, in their order, and nothing else. -/
theorem lines_printAll (url : Path) (source : String) (mode : ResolutionMode) (color : Bool)
    (hurl : '\n' ∉ url.text.toList) (short : Text.byteLength source.toList < UInt32.size) :
    ∃ page, analyze url source mode [FunctionKeyword.scanner] = .ok page ∧
      let printer : Printer := ⟨page.sources.loader, ⟨.oneLine, color⟩⟩
      let written := page.render ⟨.oneLine, color⟩
      printer.printAll (Sink.empty none) page.warnings =
          (⟨written, none⟩, .ok page.warnings.length) ∧
        written.toList.splitOn '\n' =
          page.warnings.map (fun w => (printer.summary w).toList) ++ [[]] ∧
        ∀ w ∈ page.warnings, '\n' ∉ (printer.summary w).toList := by
  obtain ⟨page, -, -, hpage, -⟩ := analyze_read url source mode short
  have hlines : ∀ w ∈ page.warnings, w.OneLine ∧
      ∃ range, w.range = some range ∧ Text.OneLine range.file.text := by
    intro w hw
    refine ⟨forall_mem_warnings short hpage (fun _ hj => Analyzer.oneLine_journal_page hj)
      (fun _ _ hk => hk.oneLine) w hw, ?_⟩
    obtain ⟨range, hrange, span, -, rfl⟩ := warnings_placed short hpage w hw
    exact ⟨_, hrange, hurl⟩
  refine ⟨page, hpage, ?_, Printer.lines_renderAll rfl hlines, ?_⟩
  · exact (Printer.printAll_unlimited _ "" _).trans (by rw [String.empty_append]; rfl)
  · intro w hw
    obtain ⟨hline, range, hrange, hfile⟩ := hlines w hw
    exact Printer.oneLine_summary _ hline hrange hfile

theorem lines_printAll_unmatchedPage :
    ∃ page, analyze ⟨"a.html"⟩ unmatchedPage .parallel [FunctionKeyword.scanner] = .ok page ∧
      page.warnings.length = 2 ∧
      (page.render ⟨.oneLine, true⟩).toList.splitOn '\n' = page.warnings.map (fun w =>
        (Printer.summary ⟨page.sources.loader, ⟨.oneLine, true⟩⟩ w).toList) ++ [[]] := by
  obtain ⟨page, hpage, -, hlines, -⟩ := lines_printAll ⟨"a.html"⟩ unmatchedPage .parallel true
    (by decide) (by decide +kernel)
  obtain ⟨page', hpage', hcodes⟩ := map_eq_ok_iff.mp codes_unmatchedPage
  obtain rfl : page = page' := Except.ok.inj (hpage.symm.trans hpage')
  have hlength := congrArg List.length hcodes
  rw [List.length_map] at hlength
  exact ⟨page, hpage, hlength, hlines⟩

end Page

end PageLint
