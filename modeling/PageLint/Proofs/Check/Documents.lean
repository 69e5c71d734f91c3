import PageLint.Check.Run
import PageLint.Proofs.Analysis.Embedded
import PageLint.Proofs.Check.Discovery

/-!
# The documents of a check

A check analyzes its documents one after the other, each read from the disk. This works out if
and only if all of them can be read as text, and what comes of it does not depend on how
findings are resolved.
-/

namespace PageLint

open Table

/-! ## One analyzer for both ways to resolve -/

theorem resolveAll_mode (mode mode' : ResolutionMode) : resolveAll mode = resolveAll mode' := by
  funext d found
  rw [resolveAll_eq, resolveAll_eq]

namespace Analyzer

section

variable (scanners : List Scanner) (mode mode' : ResolutionMode)

theorem build_mode : (⟨scanners, mode⟩ : Analyzer).build = (⟨scanners, mode'⟩ : Analyzer).build := by
  funext url language contents offset leading
  unfold build
  simp only [resolveAll_mode mode mode']

theorem addInline_mode (depth : Nat) : (⟨scanners, mode⟩ : Analyzer).addInline depth =
    (⟨scanners, mode'⟩ : Analyzer).addInline depth := by
  induction depth with
  | zero =>
    funext t container children
    cases children <;> rfl
  | succ depth ih =>
    funext t container children
    have hchild (t : Table) (child : InlineDocument) :
        (⟨scanners, mode⟩ : Analyzer).addChild depth container t child =
          (⟨scanners, mode'⟩ : Analyzer).addChild depth container t child := by
      unfold addChild
      rw [build_mode scanners mode mode', ih]
    induction children generalizing t with
    | nil => rfl
    | cons child children ihchildren =>
      rw [addInline_cons, addInline_cons, hchild]
      exact bind_congr ihchildren

theorem analyze_mode : (⟨scanners, mode⟩ : Analyzer).analyze =
    (⟨scanners, mode'⟩ : Analyzer).analyze := by
  funext t url language contents
  unfold analyze
  rw [build_mode scanners mode mode', addInline_mode scanners mode mode']

end

/-- A page can be added to any table that no document was taken out of. -/
theorem exists_analyze_pagesOnly (mode : ResolutionMode) {t : Table} (full : t.Every fun _ => True)
    (url : Path) (language : Language) (contents : String) :
    ∃ t' id, (pagesOnly mode).analyze t url language contents = .ok (t', id) ∧
      t'.Every fun _ => True := by
  obtain ⟨j, hj, hinner⟩ : ∃ j, (pagesOnly mode).journal url language contents none = .ok j ∧
      ∀ inner ∈ j.inner, inner.language ≠ .html := by
    by_cases hlanguage : language = .html
    · rw [hlanguage]
      exact exists_journal_pagesOnly mode url contents
    · obtain ⟨j, hj, hnil⟩ := journal_pagesOnly_of_ne_html mode url hlanguage contents none
      exact ⟨j, hj, hnil ▸ List.forall_mem_nil _⟩
  have hstart : (t.insert (j.document none)).1.Every fun _ => True :=
    full.of_get? trivial (size_slots_insert t _) (get?_insert t _)
  -- the new document is there even if its id was given out before
  obtain ⟨outer, houter, -⟩ := hstart t.nextId (by
    rw [size_slots_insert]
    exact Nat.lt_succ_of_le t.index_nextId_le)
  obtain ⟨t', hadd, -⟩ := exists_addInline_pagesOnly mode nestingLimit_pos houter hinner
  refine ⟨t', t.nextId, analyze_eq_ok.mpr ⟨j, hj, rfl, hadd⟩, ?_⟩
  exact addInline_induction (P := (Every · fun _ => True)) hadd hstart fun every _ _ hinsert =>
    every.of_get? trivial (size_slots_insertInline hinsert) (get?_insertInline hinsert)

end Analyzer

/-! ## Reading from the disk -/

namespace Database

variable {db : Database} {disk : Disk} {path : Path}

theorem get?_of_new (hnew : ∀ held ∈ db.files, ¬ held.path.Same path) : db.get? path = none :=
  List.find?_eq_none.mpr fun held hheld => by simpa using hnew held hheld

theorem load_of_text (hdisk : db.disk = some disk)
    (hnew : ∀ held ∈ db.files, ¬ held.path.Same path) {text : String}
    (h : disk.readText path = .ok text) :
    db.load path =
      (.ok (SourceFile.ofContent path text), db.add (SourceFile.ofContent path text)) := by
  simp only [load, get?_of_new hnew, hdisk, h]

theorem load_of_error (hdisk : db.disk = some disk)
    (hnew : ∀ held ∈ db.files, ¬ held.path.Same path) {cause : ReadError}
    (h : disk.readText path = .error cause) : ∃ e, db.load path = (.error e, db) := by
  simp only [load, get?_of_new hnew, hdisk, h]
  cases cause <;> exact ⟨_, rfl⟩

theorem add_of_new (file : SourceFile)
    (hnew : ∀ held ∈ db.files, ¬ held.path.Same file.path) :
    db.add file = { db with files := db.files ++ [file] } := by
  have hany : db.files.any (·.path.Same file.path) = false := by
    apply List.any_eq_false.mpr
    intro held hheld
    simpa using hnew held hheld
  rw [add, hany]
  rfl

end Database

namespace Check

variable {disk : Disk} {mode : ResolutionMode}

theorem analyzeFile_of_load {analysis : Analysis} {path : Path} {file : SourceFile}
    {sources : Database} (h : analysis.sources.load path = (.ok file, sources))
    (analyzer : Analyzer) : analyzeFile analyzer analysis path =
      ((analyzer.analyze analysis.table path ((Language.ofPath? path).getD .html)
        file.content).mapError .fault).map fun added => ⟨added.1, sources⟩ := by
  rw [analyzeFile, h]
  change Except.bind (Except.mapError _ (analyzer.analyze _ _ _ _)) _ = _
  cases analyzer.analyze analysis.table path ((Language.ofPath? path).getD .html) file.content with
  | error e => rfl
  | ok added => rfl

/-- An analysis of files of the disk, none of them at the paths that are still to come. -/
structure Underway (disk : Disk) (ahead : List Path) (analysis : Analysis) : Prop where
  full : analysis.table.Every fun _ => True
  disk : analysis.sources.disk = some disk
  new : ∀ file ∈ analysis.sources.files, ∀ path ∈ ahead, ¬ file.path.Same path

namespace Underway

variable {path : Path} {ahead : List Path} {analysis : Analysis}

theorem new_head (underway : Underway disk (path :: ahead) analysis) :
    ∀ held ∈ analysis.sources.files, ¬ held.path.Same path :=
  fun held hheld => underway.new held hheld path List.mem_cons_self

/-- A document that can be read is added. -/
theorem exists_analyzeFile (mode : ResolutionMode)
    (underway : Underway disk (path :: ahead) analysis)
    (hpath : ∀ other ∈ ahead, ¬ path.Same other) {text : String}
    (h : disk.readText path = .ok text) :
    ∃ next, analyzeFile (Analyzer.pagesOnly mode) analysis path = .ok next ∧
      Underway disk ahead next := by
  obtain ⟨t, id, hanalyze, full⟩ := Analyzer.exists_analyze_pagesOnly mode underway.full path
    ((Language.ofPath? path).getD .html) (SourceFile.ofContent path text).content
  have hadd := Database.add_of_new (SourceFile.ofContent path text) underway.new_head
  refine ⟨⟨t, analysis.sources.add (SourceFile.ofContent path text)⟩, ?_, full, ?_, ?_⟩
  · rw [analyzeFile_of_load (Database.load_of_text underway.disk underway.new_head h), hanalyze]
    rfl
  · rw [hadd]
    exact underway.disk
  · rw [hadd]
    refine List.forall_mem_append.mpr ⟨?_, List.forall_mem_singleton.mpr hpath⟩
    exact fun held hheld other hother =>
      underway.new held hheld other (List.mem_cons_of_mem _ hother)

theorem analyzeFile_ne_ok (underway : Underway disk (path :: ahead) analysis) {cause : ReadError}
    (h : disk.readText path = .error cause) (analyzer : Analyzer) (next : Analysis) :
    analyzeFile analyzer analysis path ≠ .ok next := by
  obtain ⟨e, he⟩ := Database.load_of_error underway.disk underway.new_head h
  rw [analyzeFile, he]
  intro hok
  obtain ⟨file, hfile, -⟩ := bind_eq_ok_iff.mp hok
  cases mapError_eq_ok_iff.mp hfile

/-- All documents that are still to come are added if and only if each can be read. -/
theorem exists_foldlM_iff {paths : List Path} (underway : Underway disk paths analysis)
    (distinct : paths.Pairwise fun p q => ¬ p.Same q) :
    (∃ last, paths.foldlM (analyzeFile (Analyzer.pagesOnly mode)) analysis = .ok last) ↔
      ∀ path ∈ paths, ∃ text, disk.readText path = .ok text := by
  induction paths generalizing analysis with
  | nil => exact ⟨fun _ => List.forall_mem_nil _, fun _ => ⟨analysis, rfl⟩⟩
  | cons path paths ih =>
    obtain ⟨hpath, hpaths⟩ := List.pairwise_cons.mp distinct
    rw [List.foldlM_cons, List.forall_mem_cons]
    cases hread : disk.readText path with
    | error cause =>
      constructor
      · rintro ⟨last, h⟩
        obtain ⟨next, hnext, -⟩ := bind_eq_ok_iff.mp h
        exact absurd hnext (underway.analyzeFile_ne_ok hread _ _)
      · rintro ⟨⟨text, h⟩, -⟩
        cases h
    | ok text =>
      obtain ⟨next, hnext, underway⟩ := underway.exists_analyzeFile mode hpath hread
      rw [hnext]
      exact (ih underway hpaths).trans ⟨fun h => ⟨⟨text, rfl⟩, h⟩, And.right⟩

end Underway

/-- Documents are analyzed if and only if each of them can be read. -/
theorem exists_analyze_iff (disk : Disk) (mode : ResolutionMode) {paths : List Path}
    (distinct : paths.Pairwise fun p q => ¬ p.Same q) :
    (∃ analysis, analyze disk mode paths = .ok analysis) ↔
      ∀ path ∈ paths, ∃ text, disk.readText path = .ok text :=
  Underway.exists_foldlM_iff ⟨Table.every_empty _, rfl, List.forall_mem_nil _⟩ distinct

theorem analyze_mode (disk : Disk) (mode mode' : ResolutionMode) (paths : List Path) :
    analyze disk mode paths = analyze disk mode' paths := by
  have hfile : analyzeFile ⟨Analyzer.pageScanners, mode⟩ =
      analyzeFile ⟨Analyzer.pageScanners, mode'⟩ := by
    funext analysis path
    unfold analyzeFile
    rw [Analyzer.analyze_mode _ mode mode']
  rw [analyze, hfile, analyze]

end Check

end PageLint
