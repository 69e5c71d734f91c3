import PageLint.Proofs.Check.Documents

/-!
# How a check ends

How a check ends is settled by the disk, the configuration and the paths alone: it fails if it
cannot be carried out, and otherwise it tells whether there is an error among the warnings.
What it is asked to print, and how, changes nothing of this.
-/

namespace PageLint

/-- A warning about the document or about a feature of it is an error. -/
def Document.HasError (d : Document) : Prop :=
  (∃ w ∈ d.warnings, w.severity = .error) ∨
    ∃ f ∈ d.features, ∃ w ∈ f.warnings, w.severity = .error

theorem Table.exists_error_iff {t : Table} :
    (∃ w ∈ t.warnings, w.severity = .error) ↔ ∃ entry ∈ t.entries, entry.2.HasError := by
  simp only [warnings, Document.allWarnings, Document.HasError, List.mem_flatMap, List.mem_append]
  constructor
  · rintro ⟨w, ⟨entry, hentry, hw | ⟨f, hf, hw⟩⟩, herror⟩
    · exact ⟨entry, hentry, Or.inl ⟨w, hw, herror⟩⟩
    · exact ⟨entry, hentry, Or.inr ⟨f, hf, w, hw, herror⟩⟩
  · rintro ⟨entry, hentry, ⟨w, hw, herror⟩ | ⟨f, hf, w, hw, herror⟩⟩
    · exact ⟨w, ⟨entry, hentry, Or.inl hw⟩, herror⟩
    · exact ⟨w, ⟨entry, hentry, Or.inr ⟨f, hf, hw⟩⟩, herror⟩

namespace Check

section

variable (disk : Disk) (config : Option Path) (paths : List Path)

/-- The paths stand for some documents, under the settings that the check goes by. -/
def Discovers (settings : Config) (documents : List Path) : Prop :=
  loadConfig disk config = .ok settings ∧ disk.discover settings.analysis paths = .ok documents

/-- The settings cannot be had, a path leads nowhere, or a document cannot be read as text. -/
def Impossible : Prop :=
  (∃ e, loadConfig disk config = .error e) ∨
    (∃ path ∈ paths, ∃ e, disk.find path = .error e) ∨
      ∃ settings documents, Discovers disk config paths settings documents ∧
        ∃ path ∈ documents, ∃ e, disk.readText path = .error e

/-- What a check comes to if it can be carried out, in either way to resolve findings. -/
structure CarriedOut (settings : Config) (documents : List Path) (analysis : Analysis) : Prop where
  discovers : Discovers disk config paths settings documents
  analyzes (mode : ResolutionMode) : analyze disk mode documents = .ok analysis

/-- The analysis of the documents has an error. -/
def FindsErrors : Prop :=
  ∃ settings documents analysis, CarriedOut disk config paths settings documents analysis ∧
    ∃ entry ∈ analysis.table.entries, entry.2.HasError

end

section

variable {disk : Disk} {config : Option Path} {paths documents : List Path} {settings : Config}
  {analysis : Analysis}

theorem Discovers.unique (h : Discovers disk config paths settings documents)
    {settings' : Config} {documents' : List Path}
    (h' : Discovers disk config paths settings' documents') :
    settings = settings' ∧ documents = documents' := by
  cases h.1.symm.trans h'.1
  exact ⟨rfl, Except.ok.inj (h.2.symm.trans h'.2)⟩

theorem CarriedOut.not_impossible (h : CarriedOut disk config paths settings documents analysis) :
    ¬ Impossible disk config paths := by
  rintro (⟨e, he⟩ | ⟨path, hpath, e, he⟩ | ⟨settings', documents', h', path, hpath, e, he⟩)
  · cases he.symm.trans h.discovers.1
  · obtain ⟨entry, hentry⟩ := exists_discover_iff.mp ⟨documents, h.discovers.2⟩ path hpath
    cases he.symm.trans hentry
  · obtain ⟨-, rfl⟩ := h.discovers.unique h'
    obtain ⟨text, htext⟩ := (exists_analyze_iff disk .sequential (distinct_of_discover h'.2)).mp
      ⟨analysis, h.analyzes .sequential⟩ path hpath
    cases he.symm.trans htext

/-- What is found does not depend on the documents that one looks at: there are no others. -/
theorem CarriedOut.findsErrors_iff
    (h : CarriedOut disk config paths settings documents analysis) :
    FindsErrors disk config paths ↔ ∃ w ∈ analysis.table.warnings, w.severity = .error := by
  rw [Table.exists_error_iff]
  constructor
  · rintro ⟨settings', documents', analysis', h', herror⟩
    obtain ⟨rfl, rfl⟩ := h.discovers.unique h'.discovers
    cases (h.analyzes .sequential).symm.trans (h'.analyzes .sequential)
    exact herror
  · exact fun herror => ⟨settings, documents, analysis, h, herror⟩

/-- If no document is found there are no warnings. -/
theorem CarriedOut.warnings_of_nil (h : CarriedOut disk config paths settings [] analysis) :
    analysis.table.warnings = [] := by
  cases h.analyzes .sequential
  rfl

end

/-! ## Running a check -/

/-- What is said before documents are analyzed. -/
def checking (options : CheckOptions) (documents : List Path) : String :=
  unlessQuiet options s!"   Checking {documents.length} document(s)\n"

/-- How a check ends: it fails, there is nothing to look at, or it reports what it found. -/
inductive Ends (disk : Disk) (terminal : Bool) (options : CheckOptions) (outcome : Outcome) : Prop
  | failed (impossible : Impossible disk options.config options.paths) (e : CheckError)
      (h : outcome = .failure "" e ∨ ∃ documents, outcome = .failure (checking options documents) e)
  | empty {settings : Config} {analysis : Analysis}
      (carriedOut : CarriedOut disk options.config options.paths settings [] analysis)
      (h : outcome = ⟨.passed, "", unlessQuiet options "warning: no documents found\n"⟩)
  | reported {settings : Config} {documents : List Path} {analysis : Analysis}
      (carriedOut : CarriedOut disk options.config options.paths settings documents analysis)
      (some : documents ≠ [])
      (h : outcome = report options settings.output terminal (checking options documents) analysis)

section

variable {disk : Disk} (terminal : Bool) (options : CheckOptions) {settings : Config}
  {documents : List Path} {analysis : Analysis}

theorem run_of_nil
    (h : CarriedOut disk options.config options.paths settings [] analysis) :
    run disk terminal options =
      ⟨.passed, "", unlessQuiet options "warning: no documents found\n"⟩ := by
  simp only [run, h.discovers.1, h.discovers.2]

theorem run_of_ne_nil
    (h : CarriedOut disk options.config options.paths settings documents analysis)
    (hne : documents ≠ []) : run disk terminal options =
      report options settings.output terminal (checking options documents) analysis := by
  obtain ⟨path, rest, rfl⟩ := List.exists_cons_of_ne_nil hne
  simp only [run, h.discovers.1, h.discovers.2, h.analyzes]
  rfl

end

theorem ends_run (disk : Disk) (terminal : Bool) (options : CheckOptions) :
    Ends disk terminal options (run disk terminal options) := by
  cases hconfig : loadConfig disk options.config with
  | error e =>
    refine .failed (Or.inl ⟨e, hconfig⟩) e (Or.inl ?_)
    simp only [run, hconfig]
  | ok settings =>
    cases hdiscover : disk.discover settings.analysis options.paths with
    | error path =>
      refine .failed (Or.inr (Or.inl ?_)) (.noPath path) (Or.inl ?_)
      · have hnone : ¬ ∃ documents,
            disk.discover settings.analysis options.paths = .ok documents := by
          rintro ⟨documents, h⟩
          cases hdiscover.symm.trans h
        rw [exists_discover_iff] at hnone
        push Not at hnone
        obtain ⟨path, hpath, hfind⟩ := hnone
        exact ⟨path, hpath, exists_error_of_not_ok fun ⟨entry, h⟩ => hfind entry h⟩
      · simp only [run, hconfig, hdiscover]
    | ok documents =>
      have hdiscovers : Discovers disk options.config options.paths settings documents :=
        ⟨hconfig, hdiscover⟩
      by_cases hread : ∀ path ∈ documents, ∃ text, disk.readText path = .ok text
      · obtain ⟨analysis, hanalyze⟩ :=
          (exists_analyze_iff disk .sequential (distinct_of_discover hdiscover)).mpr hread
        have carriedOut : CarriedOut disk options.config options.paths settings documents analysis :=
          ⟨hdiscovers, fun mode => (analyze_mode disk mode .sequential documents).trans hanalyze⟩
        by_cases hnil : documents = []
        · subst hnil
          exact .empty carriedOut (run_of_nil terminal options carriedOut)
        · exact .reported carriedOut hnil (run_of_ne_nil terminal options carriedOut hnil)
      · obtain ⟨e, he⟩ := exists_error_of_not_ok (mt (exists_analyze_iff disk
          (options.resolutionMode settings.analysis) (distinct_of_discover hdiscover)).mp hread)
        push Not at hread
        obtain ⟨document, hdocument, hread⟩ := hread
        refine .failed (Or.inr (Or.inr ⟨settings, documents, hdiscovers, document, hdocument,
          exists_error_of_not_ok fun ⟨text, h⟩ => hread text h⟩)) e (Or.inr ⟨documents, ?_⟩)
        obtain ⟨path, rest, rfl⟩ := List.exists_cons_of_ne_nil (List.ne_nil_of_mem hdocument)
        simp only [run, hconfig, hdiscover, he]
        rfl

theorem errorCount_eq_zero_iff {ws : List Warning} :
    Report.errorCount (Warning.sorted ws) = 0 ↔ ¬ ∃ w ∈ ws, w.severity = .error := by
  rw [Report.errorCount, List.countP_eq_zero]
  simp [Warning.sorted]

theorem status_report (options : CheckOptions) (settings : OutputSettings) (terminal : Bool)
    (messages : String) (analysis : Analysis) :
    (report options settings terminal messages analysis).status =
      if Report.errorCount (Warning.sorted analysis.table.warnings) = 0 then .passed
      else .errorsFound := by
  unfold report
  simp only
  split <;> rfl

/-- A check fails exactly if it cannot be carried out; otherwise its exit code tells whether
errors were found. -/
theorem status_run (disk : Disk) (terminal : Bool) (options : CheckOptions) :
    ((run disk terminal options).status = .failed ↔
        Impossible disk options.config options.paths) ∧
      ((run disk terminal options).status = .errorsFound ↔
        ¬ Impossible disk options.config options.paths ∧
          FindsErrors disk options.config options.paths) := by
  cases ends_run disk terminal options with
  | failed impossible e h =>
    have hstatus : (run disk terminal options).status = .failed := by
      rcases h with h | ⟨documents, h⟩
      · rw [h]
        rfl
      · rw [h]
        rfl
    simp [hstatus, impossible]
  | empty carriedOut h =>
    have hnone := carriedOut.findsErrors_iff
    rw [carriedOut.warnings_of_nil] at hnone
    simp [h, carriedOut.not_impossible, hnone]
  | reported carriedOut some h =>
    have herrors := errorCount_eq_zero_iff.trans (not_congr carriedOut.findsErrors_iff.symm)
    rw [h, status_report]
    by_cases hcount : FindsErrors disk options.config options.paths
    · rw [if_neg fun hzero => herrors.mp hzero hcount]
      simp [carriedOut.not_impossible, hcount]
    · rw [if_pos (herrors.mpr hcount)]
      simp [carriedOut.not_impossible, hcount]

theorem exitCode_iff (status : CheckStatus) :
    (status.exitCode = 2 ↔ status = .failed) ∧ (status.exitCode = 1 ↔ status = .errorsFound) ∧
      (status.exitCode = 0 ↔ status ≠ .failed ∧ status ≠ .errorsFound) := by
  cases status <;> decide

/-- The exit code of a check is 2 exactly if it cannot be carried out, and then no warning is
printed; it is 1 exactly if errors are found, and otherwise 0. So it is the same for all
options that have the same configuration and the same paths. -/
theorem exitCode_run (disk : Disk) (terminal : Bool) (options : CheckOptions) :
    let outcome := run disk terminal options
    let impossible := Impossible disk options.config options.paths
    let errors := FindsErrors disk options.config options.paths
    (outcome.status.exitCode = 2 ↔ impossible) ∧
      (outcome.status.exitCode = 1 ↔ ¬ impossible ∧ errors) ∧
      (outcome.status.exitCode = 0 ↔ ¬ impossible ∧ ¬ errors) ∧
      (impossible → outcome.output = "" ∧ ∃ e : CheckError,
        outcome.messages = "error: " ++ e.message ++ "\n" ∨ ∃ documents,
          outcome.messages = checking options documents ++ "error: " ++ e.message ++ "\n") ∧
      ∀ terminal' (options' : CheckOptions), options'.config = options.config →
        options'.paths = options.paths →
          (run disk terminal' options').status.exitCode = outcome.status.exitCode := by
  obtain ⟨hfailed, herrors⟩ := status_run disk terminal options
  obtain ⟨htwo, hone, hzero⟩ := exitCode_iff (run disk terminal options).status
  refine ⟨htwo.trans hfailed, hone.trans herrors, ?_, ?_, ?_⟩
  · refine hzero.trans ((and_congr (not_congr hfailed) (not_congr herrors)).trans ?_)
    exact and_congr_right fun hpossible => by simp [hpossible]
  · intro impossible
    cases ends_run disk terminal options with
    | failed _ e h =>
      rcases h with h | ⟨documents, h⟩
      · rw [h]
        exact ⟨rfl, e, Or.inl rfl⟩
      · rw [h]
        exact ⟨rfl, e, Or.inr ⟨documents, rfl⟩⟩
    | empty carriedOut _ => exact absurd impossible carriedOut.not_impossible
    | reported carriedOut _ _ => exact absurd impossible carriedOut.not_impossible
  · intro terminal' options' hconfig hpaths
    obtain ⟨hfailed', herrors'⟩ := status_run disk terminal' options'
    rw [hconfig, hpaths] at hfailed' herrors'
    have hstatus : ∀ s s' : CheckStatus, (s' = .failed ↔ s = .failed) →
        (s' = .errorsFound ↔ s = .errorsFound) → s' = s := by
      rintro (_ | _ | _) (_ | _ | _) <;> simp
    exact congrArg CheckStatus.exitCode
      (hstatus _ _ (hfailed'.trans hfailed.symm) (herrors'.trans herrors.symm))

/-- A disk with a page whose script has a blank source. -/
def blankSourceDisk : Disk := ⟨.directory [("a.html", .file "<script src=\"\"></script>".toUTF8)], []⟩

theorem exitCode_run_blankSourceDisk :
    ¬ Impossible blankSourceDisk none [⟨"."⟩] ∧ FindsErrors blankSourceDisk none [⟨"."⟩] :=
  (exitCode_run blankSourceDisk true
    ⟨true, false, .never, none, [⟨"."⟩], some .oneLine, some .json, true⟩).2.1.mp
      (by decide +kernel)

end Check

end PageLint
