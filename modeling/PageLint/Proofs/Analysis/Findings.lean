import PageLint.Proofs.Analysis.Inline

/-!
# What scanners find

Scanners do not link documents to the ones around them; only the analyzer does. In
scripts and stylesheets no documents are found, and those found in a page are no pages.
-/

namespace PageLint.Analyzer

open FunctionKeyword (Site sites)

/-- No scanner says of a document what it is inside of. -/
def Plain (a : Analyzer) : Prop :=
  ∀ scanner ∈ a.scanners, ∀ d result, scanner.scan d = .ok result →
    ∀ s ∈ result.features, s.container? = none

theorem exists_scanner_of_consult {d : Document} {scanners : List Scanner}
    {results : List ScanResult} (h : consult d scanners = .ok results) :
    ∀ r ∈ results, ∃ scanner ∈ scanners, ∃ d', scanner.scan d' = .ok r := by
  induction scanners generalizing d results with
  | nil =>
    cases h
    exact nofun
  | cons scanner scanners ih =>
    obtain ⟨result, hresult, h⟩ := bind_eq_ok_iff.mp h
    obtain ⟨others, hothers, h⟩ := bind_eq_ok_iff.mp h
    cases h
    intro r hr
    rcases List.mem_cons.mp hr with rfl | hr
    · exact ⟨scanner, List.mem_cons_self, d, hresult⟩
    · obtain ⟨scanner', hscanner', hscan⟩ := ih hothers r hr
      exact ⟨scanner', List.mem_cons_of_mem _ hscanner', hscan⟩

theorem exists_scanner_of_journal {a : Analyzer} {url : Path} {language : Language}
    {contents : String} {offset : Option Offset} {j : Journal}
    (h : a.journal url language contents offset = .ok j) {s : ScannedFeature}
    (hs : s ∈ j.findings) :
    ∃ scanner ∈ a.scannersOf language, ∃ d r, scanner.scan d = .ok r ∧ s ∈ r.features := by
  obtain ⟨-, hresults, -⟩ := journal_eq_ok_iff.mp h
  obtain ⟨r, hr, hs⟩ := List.mem_flatMap.mp hs
  obtain ⟨scanner, hscanner, d, hscan⟩ := exists_scanner_of_consult hresults r hr
  exact ⟨scanner, hscanner, d, r, hscan, hs⟩

theorem Plain.features {a : Analyzer} (plain : a.Plain) {url : Path} {language : Language}
    {contents : String} {offset : Option Offset} {j : Journal}
    (h : a.journal url language contents offset = .ok j) :
    ∀ f ∈ j.resolution.features, f.container? = none := by
  intro f hf
  obtain ⟨s, hs, -, -, hcontainer⟩ := Journal.exists_finding hf
  obtain ⟨scanner, hscanner, d, r, hscan, hr⟩ := exists_scanner_of_journal h hs
  rw [hcontainer]
  exact plain scanner (List.mem_filter.mp hscanner).1 d r hscan s hr

/-! ## The scanners of pages and scripts -/

theorem container?_script {base : Option String} {id : NodeId} {node : Markup.Node}
    {s : ScannedFeature} (h : Script.feature? base id node = some s) : s.container? = none := by
  unfold Script.feature? at h
  split at h
  · cases h
    rfl
  · unfold Script.internal? at h
    split at h
    · cases h
      rfl
    · cases h

theorem container?_style {base : Option String} {id : NodeId} {node : Markup.Node}
    {s : ScannedFeature} (h : Style.feature? base id node = some s) : s.container? = none := by
  unfold Style.feature? at h
  split at h
  · split at h
    · cases h
      rfl
    · cases h
  · split at h
    · unfold Style.embedded? at h
      split at h
      · cases h
        rfl
      · cases h
    · cases h

theorem function_of_scan {d : Document} {r : ScanResult}
    (h : FunctionKeyword.scanner.scan d = .ok r) :
    ∀ s ∈ r.features, ∃ decl range, s = .function decl range [] := by
  obtain ⟨features, hfeatures, h⟩ := bind_eq_ok_iff.mp h
  cases h
  intro s hs
  obtain ⟨site, -, hsite⟩ := exists_of_mem_mapM hfeatures hs
  obtain ⟨range, -, hsite⟩ := bind_eq_ok_iff.mp hsite
  cases hsite
  exact ⟨_, range, rfl⟩

theorem plain_withFunctions (mode : ResolutionMode) : (withFunctions mode).Plain := by
  intro scanner hscanner d r hscan s hs
  change scanner ∈ [Script.scanner, Style.scanner, FunctionKeyword.scanner] at hscanner
  simp only [List.mem_cons, List.not_mem_nil, or_false] at hscanner
  rcases hscanner with rfl | rfl | rfl
  · cases hscan
    obtain ⟨e, -, heq⟩ := List.mem_filterMap.mp hs
    exact container?_script heq
  · cases hscan
    obtain ⟨e, -, heq⟩ := List.mem_filterMap.mp hs
    exact container?_style heq
  · obtain ⟨decl, range, rfl⟩ := function_of_scan hscan s hs
    rfl

theorem inner_eq_nil_of_ne_html {mode : ResolutionMode} {url : Path} {language : Language}
    (hlanguage : language ≠ .html) {contents : String} {offset : Option Offset} {j : Journal}
    (h : (withFunctions mode).journal url language contents offset = .ok j) : j.inner = [] := by
  apply inner_eq_nil
  intro s hs
  obtain ⟨scanner, hscanner, d, r, hscan, hr⟩ := exists_scanner_of_journal h hs
  rw [scannersOf_withFunctions] at hscanner
  cases language with
  | html => exact absurd rfl hlanguage
  | javaScript =>
    rw [List.mem_singleton.mp hscanner] at hscan
    obtain ⟨decl, range, rfl⟩ := function_of_scan hscan s hr
    rfl
  | css => cases hscanner

/-- A script or a stylesheet that is not inside a page can be read. -/
theorem exists_journal_of_ne_html (mode : ResolutionMode) (url : Path) {language : Language}
    (hlanguage : language ≠ .html) (contents : String) :
    ∃ j, (withFunctions mode).journal url language contents none = .ok j := by
  let d : Document := ⟨url, language, contents, Markup.Tree.empty, none, [], []⟩
  have hparse := parse_embedded mode url hlanguage contents none
  have hscanners := scannersOf_withFunctions mode language
  cases language with
  | html => exact absurd rfl hlanguage
  | css =>
    refine ⟨⟨d, []⟩, journal_eq_ok_iff.mpr ⟨hparse, ?_, fun s hs => absurd hs List.not_mem_nil⟩⟩
    rw [hscanners]
    rfl
  | javaScript =>
    let file := SourceFile.ofContent url contents
    let found (site : Site) : ScannedFeature :=
      .function ⟨site.name, none, none, [], none, none⟩ (file.rangeOf site.span) []
    let result : ScanResult := ⟨(sites contents.toList).map found, []⟩
    have hfeatures : (sites contents.toList).mapM (Site.feature ⟨file, none⟩) =
        .ok ((sites contents.toList).map found) := mapM_eq_ok fun _ _ => rfl
    have hscan : FunctionKeyword.scanner.scan d = .ok result := by
      change Except.bind ((sites contents.toList).mapM (Site.feature ⟨file, none⟩)) _ = _
      rw [hfeatures]
      rfl
    refine ⟨⟨d, [result]⟩, journal_eq_ok_iff.mpr ⟨hparse, ?_, ?_⟩⟩
    · rw [hscanners]
      change Except.bind (FunctionKeyword.scanner.scan d) _ = _
      rw [hscan]
      rfl
    · intro s hs
      change s ∈ (sites contents.toList).map found ++ [] at hs
      rw [List.append_nil] at hs
      obtain ⟨site, -, rfl⟩ := List.mem_map.mp hs
      apply decide_eq_true
      exact Path.Same.refl _

/-- A document that is not inside another can be read; what is found in it stands there. -/
theorem exists_journal (mode : ResolutionMode) (url : Path) (language : Language)
    (contents : String) :
    ∃ j, (withFunctions mode).journal url language contents none = .ok j ∧
      ∀ inner ∈ j.inner, inner.StandsIn (SourceFile.ofContent url contents) := by
  by_cases hlanguage : language = .html
  · obtain ⟨j, hj, -, hinner⟩ := journal_page url contents mode
    exact ⟨j, hlanguage ▸ hj, hinner⟩
  · obtain ⟨j, hj⟩ := exists_journal_of_ne_html mode url hlanguage contents
    refine ⟨j, hj, ?_⟩
    rw [inner_eq_nil_of_ne_html hlanguage hj]
    exact nofun

end PageLint.Analyzer
