import PageLint.Proofs.Check.Documents

/-!
# Documents checked alone

The warnings of a check are those of its documents, one document after the other, as each would
have them if it were checked alone. The scripts and stylesheets inside a page are not read, so
they add none.
-/

namespace PageLint

namespace Analyzer

variable {mode : ResolutionMode} {url : Path} {language : Language} {contents : String}
  {t t' : Table}

/-- Nothing is said about what is not a page. -/
theorem allWarnings_of_ne_html (h : language ≠ .html) {offset : Option Offset} {j : Journal}
    (hj : (pagesOnly mode).journal url language contents offset = .ok j)
    (container : Option DocumentId) : (j.document container).allWarnings = [] := by
  rw [journal_pagesOnly_eq mode url h] at hj
  cases hj
  cases container <;> rfl

theorem warnings_addInline_pagesOnly {depth : Nat} {c : DocumentId}
    {children : List InlineDocument} (h : ∀ child ∈ children, child.language ≠ .html)
    (hadd : (pagesOnly mode).addInline depth t c children = .ok t') :
    t'.warnings = t.warnings := by
  cases depth with
  | zero =>
    cases children with
    | nil =>
      cases hadd
      rfl
    | cons child children => cases hadd
  | succ depth =>
    induction children generalizing t with
    | nil =>
      cases hadd
      rfl
    | cons child children ih =>
      obtain ⟨hchild, hrest⟩ := List.forall_mem_cons.mp h
      rw [addInline_cons] at hadd
      obtain ⟨t₁, hfirst, hadd⟩ := bind_eq_ok_iff.mp hadd
      rw [ih hrest hadd]
      cases houter : t.get? c with
      | none =>
        rw [addChild, houter] at hfirst
        cases hfirst
        rfl
      | some outer =>
        obtain ⟨j, t₂, id, hj, hinsert, hinner⟩ := (addChild_eq_ok houter).mp hfirst
        have hnone : j.inner = [] := by
          rw [journal_pagesOnly_eq mode _ hchild] at hj
          cases hj
          rfl
        rw [hnone, addInline_nil] at hinner
        cases hinner
        rw [Table.warnings, Table.entries_insertInline hinsert, List.flatMap_append,
          List.flatMap_singleton, allWarnings_of_ne_html hchild hj, List.append_nil]
        rfl

theorem language_of_inner {j : Journal}
    (hj : (pagesOnly mode).journal url language contents none = .ok j) :
    ∀ inner ∈ j.inner, inner.language ≠ .html := by
  by_cases hlanguage : language = .html
  · subst hlanguage
    obtain ⟨j', hj', hinner⟩ := exists_journal_pagesOnly mode url contents
    cases hj.symm.trans hj'
    exact hinner
  · rw [journal_pagesOnly_eq mode url hlanguage] at hj
    cases hj
    exact List.forall_mem_nil _

/-- A document adds the warnings about itself. -/
theorem warnings_analyze_pagesOnly {id : DocumentId}
    (h : (pagesOnly mode).analyze t url language contents = .ok (t', id)) :
    ∃ j, (pagesOnly mode).journal url language contents none = .ok j ∧
      t'.warnings = t.warnings ++ (j.document none).allWarnings := by
  obtain ⟨j, hj, -, hadd⟩ := analyze_eq_ok.mp h
  refine ⟨j, hj, ?_⟩
  rw [warnings_addInline_pagesOnly (language_of_inner hj) hadd, Table.warnings,
    Table.entries_insert, List.flatMap_append, List.flatMap_singleton]
  rfl

end Analyzer

namespace Check

/-- The warnings of a document that is checked alone, if it can be. -/
def warningsOf (disk : Disk) (mode : ResolutionMode) (path : Path) : List Warning :=
  match analyze disk mode [path] with
  | .ok analysis => analysis.table.warnings
  | .error _ => []

variable {disk : Disk} {mode : ResolutionMode} {path : Path} {ahead paths : List Path}
  {analysis next last : Analysis}

theorem underway_start (paths : List Path) : Underway disk paths ⟨Table.empty, .onDisk disk⟩ :=
  ⟨Table.every_empty _, rfl, List.forall_mem_nil _⟩

theorem analyze_singleton (disk : Disk) (mode : ResolutionMode) (path : Path) :
    analyze disk mode [path] =
      analyzeFile (Analyzer.pagesOnly mode) ⟨Table.empty, .onDisk disk⟩ path := by
  rw [analyze, List.foldlM_cons]
  exact bind_pure _

namespace Underway

theorem exists_text (underway : Underway disk (path :: ahead) analysis)
    (h : analyzeFile (Analyzer.pagesOnly mode) analysis path = .ok next) :
    ∃ text, disk.readText path = .ok text := by
  cases hread : disk.readText path with
  | error cause => exact absurd h (underway.analyzeFile_ne_ok hread _ _)
  | ok text => exact ⟨text, rfl⟩

theorem tail (underway : Underway disk (path :: ahead) analysis)
    (hpath : ∀ other ∈ ahead, ¬ path.Same other)
    (h : analyzeFile (Analyzer.pagesOnly mode) analysis path = .ok next) :
    Underway disk ahead next := by
  obtain ⟨text, hread⟩ := underway.exists_text h
  obtain ⟨next', hnext', underway'⟩ := underway.exists_analyzeFile mode hpath hread
  obtain rfl := Except.ok.inj (h.symm.trans hnext')
  exact underway'

theorem exists_journal (underway : Underway disk (path :: ahead) analysis) {text : String}
    (hread : disk.readText path = .ok text)
    (h : analyzeFile (Analyzer.pagesOnly mode) analysis path = .ok next) :
    ∃ j, (Analyzer.pagesOnly mode).journal path ((Language.ofPath? path).getD .html)
        (SourceFile.ofContent path text).content none = .ok j ∧
      next.table.warnings = analysis.table.warnings ++ (j.document none).allWarnings := by
  rw [analyzeFile_of_load (Database.load_of_text underway.disk underway.new_head hread)] at h
  obtain ⟨⟨t, id⟩, hadded, rfl⟩ := map_eq_ok_iff.mp h
  exact Analyzer.warnings_analyze_pagesOnly (mapError_eq_ok_iff.mp hadded)

theorem warnings_analyzeFile (underway : Underway disk (path :: ahead) analysis)
    (h : analyzeFile (Analyzer.pagesOnly mode) analysis path = .ok next) :
    next.table.warnings = analysis.table.warnings ++ warningsOf disk mode path := by
  obtain ⟨text, hread⟩ := underway.exists_text h
  obtain ⟨j, hj, hwarnings⟩ := underway.exists_journal hread h
  have alone : Underway disk [path] ⟨Table.empty, .onDisk disk⟩ := underway_start [path]
  obtain ⟨one, hone, -⟩ := alone.exists_analyzeFile mode (List.forall_mem_nil _) hread
  obtain ⟨j', hj', hwarnings'⟩ := alone.exists_journal hread hone
  -- what is said about the document does not depend on what was checked before
  obtain rfl := Except.ok.inj (hj.symm.trans hj')
  have halone : warningsOf disk mode path = one.table.warnings := by
    rw [warningsOf, analyze_singleton, hone]
  rw [hwarnings, halone, hwarnings']
  rfl

theorem warnings_foldlM (underway : Underway disk paths analysis)
    (distinct : paths.Pairwise fun p q => ¬ p.Same q)
    (h : paths.foldlM (analyzeFile (Analyzer.pagesOnly mode)) analysis = .ok last) :
    last.table.warnings = analysis.table.warnings ++ paths.flatMap (warningsOf disk mode) := by
  induction paths generalizing analysis with
  | nil =>
    cases h
    exact (List.append_nil _).symm
  | cons path paths ih =>
    obtain ⟨hpath, hpaths⟩ := List.pairwise_cons.mp distinct
    rw [List.foldlM_cons] at h
    obtain ⟨next, hnext, h⟩ := bind_eq_ok_iff.mp h
    rw [ih (underway.tail hpath hnext) hpaths h, underway.warnings_analyzeFile hnext, List.flatMap_cons,
      List.append_assoc]

end Underway

/-- The warnings of a check are those of its documents, each checked alone. -/
theorem warnings_analyze (distinct : paths.Pairwise fun p q => ¬ p.Same q)
    (h : analyze disk mode paths = .ok analysis) :
    analysis.table.warnings = paths.flatMap (warningsOf disk mode) :=
  (underway_start paths).warnings_foldlM distinct h

end Check

end PageLint
