import PageLint.Analyzer
import PageLint.Proofs.Feature.Resolution

/-!
# What is read in a document

A journal keeps what the parser and the scanners say about a document, before
anything is made of it. `build_eq` says that a document is built from its journal
alone, whatever document it is inside of.
-/

namespace PageLint

/-- What is said about a document until its findings are resolved. -/
structure Journal where
  /-- The document with the warnings of its parser. -/
  parsed : Document
  /-- What each scanner said, in their order. -/
  results : List ScanResult

namespace Journal

/-- What the scanners found. -/
def findings (j : Journal) : List ScannedFeature := j.results.flatMap (·.features)

/-- What the scanners said about the document as a whole. -/
def remarks (j : Journal) : List Warning := j.results.flatMap (·.warnings)

/-- What becomes of the findings. -/
def resolution (j : Journal) : Resolution :=
  Resolution.ofOutcomes (j.findings.map (·.resolveAt j.parsed))

/-- The documents that were found inside. -/
def inner (j : Journal) : List InlineDocument :=
  j.resolution.features.filterMap Feature.inlineDocument?

/-- The document that is made of a journal, inside of `container`. -/
def document (j : Journal) (container : Option DocumentId) : Document :=
  { j.parsed with
    features := (container.map backreferenceFeature).toList ++ j.resolution.features
    warnings := j.parsed.warnings ++ j.remarks ++ j.resolution.warnings }

@[simp] theorem url_document (j : Journal) (container : Option DocumentId) :
    (j.document container).url = j.parsed.url := rfl

@[simp] theorem inlineDocuments_document (j : Journal) (container : Option DocumentId) :
    (j.document container).inlineDocuments = j.inner := by
  cases container with
  | none => rfl
  | some container => rfl

/-- Every feature is made of a finding. -/
theorem exists_finding {j : Journal} {f : Feature} (h : f ∈ j.resolution.features) :
    ∃ s ∈ j.findings, f.range = s.range? ∧ f.inlineDocument? = s.inlineDocument? ∧
      f.container? = s.container? := by
  obtain ⟨outcome, houtcome, heq⟩ := List.mem_filterMap.mp h
  obtain ⟨s, hs, rfl⟩ := List.mem_map.mp houtcome
  cases hresolve : s.resolveAt j.parsed with
  | error w =>
    rw [hresolve] at heq
    cases heq
  | ok f' =>
    rw [hresolve] at heq
    cases heq
    exact ⟨s, hs, ScannedFeature.of_resolveAt hresolve⟩

theorem mem_findings_of_mem_inner {j : Journal} {inner : InlineDocument} (h : inner ∈ j.inner) :
    ∃ s ∈ j.findings, s.inlineDocument? = some inner := by
  obtain ⟨f, hf, hinner⟩ := List.mem_filterMap.mp h
  obtain ⟨s, hs, -, hinline, -⟩ := exists_finding hf
  exact ⟨s, hs, hinline.symm.trans hinner⟩

end Journal

/-! ## Reading one document -/

namespace Analyzer

/-- What scanners say in turn; each of them is shown the warnings of those before. -/
def consult (d : Document) : List Scanner → Except Fault (List ScanResult)
  | [] => .ok []
  | scanner :: scanners => do
    let result ← scanner.scan d
    let results ← consult { d with warnings := d.warnings ++ result.warnings } scanners
    pure (result :: results)

/-- The scanners of a language. -/
def scannersOf (a : Analyzer) (language : Language) : List Scanner :=
  a.scanners.filter (·.language = language)

/-- A document before a scanner looks at it. -/
def parse (a : Analyzer) (url : Path) (language : Language) (contents : String)
    (offset : Option Offset) : Except Fault Document := do
  let parsed ← match (a.scannersOf language).head? with
    | some scanner => scanner.parse url contents offset
    | none => pure Markup.Parsed.empty
  pure ⟨url, language, contents, parsed.tree, offset, [], parsed.warnings⟩

/-- The journal of a document. A finding in another file than the document's stops
the reading. -/
def journal (a : Analyzer) (url : Path) (language : Language) (contents : String)
    (offset : Option Offset) : Except Fault Journal := do
  let d ← a.parse url language contents offset
  let results ← consult d (a.scannersOf language)
  let j : Journal := ⟨d, results⟩
  if ∀ s ∈ j.findings, s.isFoundIn d then pure j else .error .foreignRange

theorem journal_eq_ok_iff {a : Analyzer} {url : Path} {language : Language} {contents : String}
    {offset : Option Offset} {j : Journal} :
    a.journal url language contents offset = .ok j ↔
      a.parse url language contents offset = .ok j.parsed ∧
        consult j.parsed (a.scannersOf language) = .ok j.results ∧
          ∀ s ∈ j.findings, s.isFoundIn j.parsed := by
  rw [journal, bind_eq_ok_iff]
  constructor
  · rintro ⟨d, hparse, h⟩
    obtain ⟨results, hresults, h⟩ := bind_eq_ok_iff.mp h
    simp only at h
    split at h
    · next hfound =>
      cases h
      exact ⟨hparse, hresults, hfound⟩
    · cases h
  · rintro ⟨hparse, hresults, hfound⟩
    exact ⟨j.parsed, hparse, bind_eq_ok_iff.mpr ⟨j.results, hresults, if_pos hfound⟩⟩

theorem exists_of_parse {a : Analyzer} {url : Path} {language : Language} {contents : String}
    {offset : Option Offset} {d : Document} (h : a.parse url language contents offset = .ok d) :
    ∃ tree warnings, d = ⟨url, language, contents, tree, offset, [], warnings⟩ := by
  rw [parse] at h
  split at h
  · obtain ⟨parsed, -, h⟩ := bind_eq_ok_iff.mp h
    cases h
    exact ⟨_, _, rfl⟩
  · cases h
    exact ⟨_, _, rfl⟩

theorem parsed_of_journal {a : Analyzer} {url : Path} {language : Language} {contents : String}
    {offset : Option Offset} {j : Journal} (h : a.journal url language contents offset = .ok j) :
    j.parsed.url = url ∧ j.parsed.offset = offset := by
  obtain ⟨tree, warnings, hparsed⟩ := exists_of_parse (journal_eq_ok_iff.mp h).1
  rw [hparsed]
  exact ⟨rfl, rfl⟩

/-- What becomes of a document once its tree is there. -/
def complete (a : Analyzer) (scanners : List Scanner) (leading : List ScannedFeature)
    (d : Document) : Except Fault Document := do
  let (d, found) ← scanners.foldlM runScanner (d, leading)
  let resolution ← resolveAll a.mode d found
  pure { d with
    features := resolution.features
    warnings := d.warnings ++ resolution.warnings }

theorem build_eq_bind (a : Analyzer) (url : Path) (language : Language) (contents : String)
    (offset : Option Offset) (leading : List ScannedFeature) :
    a.build url language contents offset leading =
      a.parse url language contents offset >>= a.complete (a.scannersOf language) leading := by
  rw [build, parse, scannersOf]
  cases (a.scanners.filter (·.language = language)).head? with
  | none => rfl
  | some scanner =>
    change Except.bind _ _ = Except.bind (Except.bind _ _) _
    cases scanner.parse url contents offset with
    | error e => rfl
    | ok parsed => rfl

theorem foldlM_runScanner (d : Document) (found : List ScannedFeature) (scanners : List Scanner) :
    scanners.foldlM runScanner (d, found) =
      (consult d scanners).map fun results =>
        ({ d with warnings := d.warnings ++ results.flatMap (·.warnings) },
          found ++ results.flatMap (·.features)) := by
  induction scanners generalizing d found with
  | nil => simp [consult, Except.map, pure, Except.pure]
  | cons scanner scanners ih =>
    rw [List.foldlM_cons, runScanner, consult]
    cases scanner.scan d with
    | error e => rfl
    | ok result =>
      change scanners.foldlM runScanner (_, _) = _
      rw [ih]
      change _ = Except.map _ ((consult _ scanners).bind fun results => .ok (result :: results))
      cases consult { d with warnings := d.warnings ++ result.warnings } scanners with
      | error e => rfl
      | ok results => simp [Except.map, Except.bind]

theorem complete_eq (a : Analyzer) (scanners : List Scanner) (container : Option DocumentId)
    {d : Document} {results : List ScanResult} (hresults : consult d scanners = .ok results) :
    a.complete scanners (container.map .backreference).toList d =
      if ∀ s ∈ (Journal.mk d results).findings, s.isFoundIn d
      then .ok ((Journal.mk d results).document container) else .error .foreignRange := by
  rw [complete, foldlM_runScanner, hresults]
  change (resolveAll a.mode _ _).bind _ = _
  have hleading : ∀ s ∈ (container.map ScannedFeature.backreference).toList, s.isFoundIn d := by
    intro s hs
    obtain ⟨c, -, rfl⟩ := Option.map_eq_some_iff.mp (Option.mem_toList.mp hs)
    rfl
  rw [resolveAll_eq]
  by_cases h : ∀ s ∈ (Journal.mk d results).findings, s.isFoundIn d
  · rw [if_pos h, if_pos, List.map_append, Resolution.ofOutcomes_append]
    · cases container with
      | none => rfl
      | some c => rfl
    · intro s hs
      exact (List.mem_append.mp hs).elim (hleading s) (h s)
  · rw [if_neg h, if_neg]
    · rfl
    · intro hall
      exact h fun s hs => hall s (List.mem_append_right _ hs)

/-- A document is what its journal makes of it. -/
theorem build_eq (a : Analyzer) (url : Path) (language : Language) (contents : String)
    (offset : Option Offset) (container : Option DocumentId) :
    a.build url language contents offset (container.map .backreference).toList =
      (a.journal url language contents offset).map (·.document container) := by
  rw [build_eq_bind, journal]
  cases hparse : a.parse url language contents offset with
  | error e => rfl
  | ok d =>
    change a.complete _ _ d = Except.map _ ((consult d _).bind _)
    cases hresults : consult d (a.scannersOf language) with
    | error e =>
      rw [complete, foldlM_runScanner, hresults]
      rfl
    | ok results =>
      rw [complete_eq a _ container hresults]
      change _ = Except.map _ (if _ then _ else _)
      split
      · rfl
      · rfl

end Analyzer

end PageLint
