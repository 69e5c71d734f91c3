import PageLint.Proofs.Analysis.Nesting
import PageLint.Scanner.FunctionKeyword

/-!
# The warnings of an analysis

Of all that is said while a page is read, the analysis keeps everything but the
warnings of findings that come to nothing. `warnings_perm` is this balance;
`warnings_kept_iff` says when nothing is missing from it.
-/

namespace PageLint

namespace Journal

/-- The warnings that scanners put on their findings. -/
def attached (j : Journal) : List Warning := j.findings.flatMap (·.warnings)

/-- All that is said about a document: by its parser, by its scanners about the
document and about what they found, and about what is wrong with that. -/
def produced (j : Journal) : List Warning :=
  j.parsed.warnings ++ j.remarks ++ j.attached ++ j.resolution.warnings

/-- The warnings on findings that come to nothing. -/
def lost (j : Journal) : List Warning := (j.findings.filter (·.IsVoid)).flatMap (·.warnings)

theorem lost_eq_nil_iff {j : Journal} :
    j.lost = [] ↔ ∀ s ∈ j.findings, s.IsVoid → s.warnings = [] := by
  simp [lost, List.flatMap_eq_nil_iff]

/-- The warnings on findings are those of the features made of them, and lost ones. -/
theorem attached_perm (d : Document) (found : List ScannedFeature) :
    ((Resolution.ofOutcomes (found.map (·.resolveAt d))).features.flatMap (·.warnings) ++
      (found.filter (·.IsVoid)).flatMap (·.warnings)).Perm (found.flatMap (·.warnings)) := by
  induction found with
  | nil => exact List.Perm.refl _
  | cons s found ih =>
    rw [List.map_cons, List.flatMap_cons]
    by_cases hs : s.IsVoid
    · obtain ⟨w, hw⟩ := ScannedFeature.resolveAt_of_isVoid hs d
      rw [hw, List.filter_cons_of_pos (by simpa using hs), List.flatMap_cons]
      refine List.Perm.trans ?_ (ih.append_left s.warnings)
      exact List.perm_append_comm_assoc _ _ _
    · obtain ⟨f, hf, hwarnings, -⟩ := ScannedFeature.resolveAt_of_not_isVoid hs d
      rw [hf, List.filter_cons_of_neg (by simpa using hs), ← hwarnings]
      change (f.warnings ++ _ ++ _).Perm _
      rw [List.append_assoc]
      exact ih.append_left f.warnings

theorem allWarnings_document_perm (j : Journal) (container : Option DocumentId) :
    ((j.document container).allWarnings ++ j.lost).Perm j.produced := by
  have hfeatures : (j.document container).features.flatMap (·.warnings) =
      j.resolution.features.flatMap (·.warnings) := by
    cases container with
    | none => rfl
    | some c => rfl
  have hattached := attached_perm j.parsed j.findings
  rw [List.perm_iff_count] at hattached ⊢
  intro w
  have hw := hattached w
  rw [Document.allWarnings, hfeatures, produced]
  change (j.parsed.warnings ++ j.remarks ++ j.resolution.warnings ++
    j.resolution.features.flatMap (·.warnings) ++ j.lost).count w = _
  change (j.resolution.features.flatMap (·.warnings) ++ j.lost).count w = j.attached.count w at hw
  simp only [List.count_append] at hw ⊢
  omega

end Journal

theorem Analyzer.warnings_perm_of_madeOf {ds : List Document} {js : List Journal}
    (made : List.Forall₂ Analyzer.MadeOf ds js) :
    (ds.flatMap (·.allWarnings) ++ js.flatMap Journal.lost).Perm
      (js.flatMap Journal.produced) := by
  induction made with
  | nil => exact List.Perm.refl _
  | @cons d j ds js hd made ih =>
    obtain ⟨container, rfl, -⟩ := hd
    have hperm := j.allWarnings_document_perm container
    rw [List.perm_iff_count] at ih hperm ⊢
    intro w
    have hrest := ih w
    have hfirst := hperm w
    simp only [List.flatMap_cons, List.count_append] at hrest hfirst ⊢
    omega

namespace Page

variable {url : Path} {source : String} {mode : ResolutionMode} {more : List Scanner} {page : Page}

/-- What an analysis keeps and what it loses is all that is said while the page and
the documents inside it are read. -/
theorem warnings_perm (h : analyze url source mode more = .ok page) :
    ∃ js, journals url source mode more = .ok js ∧
      (page.warnings ++ js.flatMap Journal.lost).Perm (js.flatMap Journal.produced) := by
  have hanalyze := analyze_of_journals url source mode more
  cases hread : journals url source mode more with
  | error fault =>
    rw [hread, h] at hanalyze
    cases hanalyze
  | ok js =>
    rw [hread, h] at hanalyze
    obtain ⟨_, ⟨⟩, made⟩ := hanalyze
    refine ⟨js, rfl, ?_⟩
    have hwarnings : page.warnings = (page.table.entries.map (·.2)).flatMap (·.allWarnings) := by
      rw [List.flatMap_map]
      rfl
    rw [hwarnings]
    exact Analyzer.warnings_perm_of_madeOf made

/-- An analysis keeps all that is said if and only if nothing was said about a finding
that comes to nothing. -/
theorem warnings_kept_iff (h : analyze url source mode more = .ok page) :
    ∃ js, journals url source mode more = .ok js ∧
      ((∀ w, (js.flatMap Journal.produced).count w ≤ page.warnings.count w) ↔
        ∀ j ∈ js, ∀ s ∈ j.findings, s.IsVoid → s.warnings = []) := by
  obtain ⟨js, hread, hperm⟩ := warnings_perm h
  refine ⟨js, hread, ?_⟩
  have hlost : (∀ j ∈ js, ∀ s ∈ j.findings, s.IsVoid → s.warnings = []) ↔
      js.flatMap Journal.lost = [] := by
    simp only [List.flatMap_eq_nil_iff, Journal.lost_eq_nil_iff]
  rw [hlost]
  constructor
  · intro hkept
    apply List.eq_nil_iff_forall_not_mem.mpr
    intro w
    apply List.count_eq_zero.mp
    have hcount := hperm.count_eq w
    have hle := hkept w
    rw [List.count_append] at hcount
    omega
  · intro hnil w
    rw [hnil, List.append_nil] at hperm
    exact Nat.le_of_eq (hperm.count_eq w).symm

/-! ## A script whose source is blank -/

/-- A page with a script that has both a blank source and text. -/
def blankSource : String := "<script src=\"\">x</script>"

theorem warnings_blankSource :
    (analyze ⟨"a.html"⟩ blankSource .sequential [FunctionKeyword.scanner]).map
      (·.warnings.map (·.code)) = .ok ["empty-import-url"] := by
  decide +kernel

theorem produced_blankSource :
    (journals ⟨"a.html"⟩ blankSource .sequential [FunctionKeyword.scanner]).map
      (fun js => (js.flatMap Journal.produced).map (·.code)) =
        .ok ["ignored-script-content", "empty-import-url"] := by
  decide +kernel

/-- The warning about the text of the script is not among those of the page. -/
theorem ignored_content_lost :
    ∃ page js, analyze ⟨"a.html"⟩ blankSource .sequential [FunctionKeyword.scanner] = .ok page ∧
      journals ⟨"a.html"⟩ blankSource .sequential [FunctionKeyword.scanner] = .ok js ∧
        ∃ w, w.code = "ignored-script-content" ∧
          page.warnings.count w < (js.flatMap Journal.produced).count w := by
  obtain ⟨page, hpage, hkept⟩ := map_eq_ok_iff.mp warnings_blankSource
  obtain ⟨js, hjs, hproduced⟩ := map_eq_ok_iff.mp produced_blankSource
  have hmem : "ignored-script-content" ∈ (js.flatMap Journal.produced).map (·.code) := by
    rw [hproduced]
    exact List.mem_cons_self
  obtain ⟨w, hw, hcode⟩ := List.mem_map.mp hmem
  refine ⟨page, js, hpage, hjs, w, hcode, ?_⟩
  have hnot : w ∉ page.warnings := by
    intro hw
    have hcodes := List.mem_map_of_mem (f := (·.code)) hw
    rw [hkept, hcode] at hcodes
    simp at hcodes
  rw [List.count_eq_zero.mpr hnot]
  exact List.count_pos_iff.mpr hw

theorem warnings_kept_iff_blankSource :
    ∃ page, analyze ⟨"a.html"⟩ blankSource .sequential [FunctionKeyword.scanner] = .ok page ∧
      ∃ js, journals ⟨"a.html"⟩ blankSource .sequential [FunctionKeyword.scanner] = .ok js ∧
        ((∀ w, (js.flatMap Journal.produced).count w ≤ page.warnings.count w) ↔
          ∀ j ∈ js, ∀ s ∈ j.findings, s.IsVoid → s.warnings = []) := by
  obtain ⟨page, hpage, -⟩ := map_eq_ok_iff.mp warnings_blankSource
  exact ⟨page, hpage, warnings_kept_iff hpage⟩

end Page

end PageLint
