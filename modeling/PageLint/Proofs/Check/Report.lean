import PageLint.Proofs.Check.Verdict
import PageLint.Proofs.Json.Lines
import PageLint.Proofs.Json.RoundTrip

/-!
# Reports as JSON

What a check reports as JSON is read back as the warnings that it prints as text. Only a check
that finds no documents reports nothing, not even that there are no warnings.
-/

namespace PageLint

@[simp] theorem Warning.sorted_nil : sorted [] = [] := List.mergeSort_nil

namespace Report

theorem parse?_json (ws : List Warning) :
    Json.parse? (json ws) = some (.array (ws.map Json.encode)) :=
  Json.parse?_pretty (Json.whole_encode ws)

theorem read?_json (ws : List Warning) : Json.read? (json ws) = some ws := by
  rw [Json.read?, parse?_json]
  exact LawfulJsonCodec.decode_encode ws

theorem parse?_nothing : Json.parse? "" = none := by decide +kernel

end Report

namespace Check

section

variable {options : CheckOptions} {settings : OutputSettings} (terminal : Bool) (messages : String)
  (analysis : Analysis)

theorem output_report (h : options.reportFormat settings = .json) :
    (report options settings terminal messages analysis).output =
      Report.json (Warning.sorted analysis.table.warnings) := by
  rw [report]
  simp only [h]

theorem messages_report (h : options.reportFormat settings = .text) :
    (report options settings terminal messages analysis).messages =
      messages ++ (if options.verbose then unlessQuiet options (listing analysis) else "") ++
        Printer.renderAll ⟨analysis.sources.loader, options.printStyle settings terminal⟩
          (Warning.sorted analysis.table.warnings) ++
        unlessQuiet options (Report.result (Warning.sorted analysis.table.warnings)) := by
  rw [report]
  simp only [h]

end

/-- A check in JSON that is carried out reports its warnings in their order, the ones that it
prints as text, if and only if it finds a document. If it finds none, it writes nothing. -/
theorem report_run (disk : Disk) (terminal : Bool) (options : CheckOptions) {settings : Config}
    (hsettings : loadConfig disk options.config = .ok settings)
    (hformat : options.reportFormat settings.output = .json)
    (hcode : (run disk terminal options).status.exitCode ≠ 2) :
    ∃ documents analysis,
      CarriedOut disk options.config options.paths settings documents analysis ∧
        let ws := Warning.sorted analysis.table.warnings
        let output := (run disk terminal options).output
        let text := run disk terminal { options with format := some .text }
        (Json.read? output = some ws ↔ documents ≠ []) ∧
          (documents = [] → ws = [] ∧ output = "" ∧
            text.messages = unlessQuiet options "warning: no documents found\n") ∧
          (documents ≠ [] → output = Report.json ws ∧
            Json.parse? output = some (.array (ws.map Json.encode)) ∧
            text.messages = checking options documents ++
              (if options.verbose then unlessQuiet options (listing analysis) else "") ++
              Printer.renderAll
                ⟨analysis.sources.loader, options.printStyle settings.output terminal⟩ ws ++
              unlessQuiet options (Report.result ws)) := by
  cases ends_run disk terminal options with
  | failed impossible e h =>
    exact absurd ((exitCode_iff _).1.mpr ((status_run disk terminal options).1.mpr impossible)) hcode
  | @empty settings' analysis carriedOut h =>
    cases hsettings.symm.trans carriedOut.discovers.1
    refine ⟨[], analysis, carriedOut, ?_⟩
    have hnothing : Json.read? "" ≠ some (Warning.sorted analysis.table.warnings) := by
      rw [Json.read?, Report.parse?_nothing]
      exact (Option.some_ne_none _).symm
    rw [h, run_of_nil terminal { options with format := some .text } carriedOut,
      carriedOut.warnings_of_nil] at *
    exact ⟨⟨fun hread => absurd hread hnothing, fun hne => absurd rfl hne⟩,
      fun _ => ⟨Warning.sorted_nil, rfl, rfl⟩, fun hne => absurd rfl hne⟩
  | @reported settings' documents analysis carriedOut hne h =>
    cases hsettings.symm.trans carriedOut.discovers.1
    refine ⟨documents, analysis, carriedOut, ?_⟩
    have houtput := output_report terminal (checking options documents) analysis hformat
    have htext := messages_report terminal (checking options documents) analysis
      (show { options with format := some .text }.reportFormat settings.output = .text from rfl)
    rw [h, run_of_ne_nil terminal { options with format := some .text } carriedOut hne, houtput]
    exact ⟨⟨fun _ => hne, fun _ => Report.read?_json _⟩, fun hnil => absurd hnil hne,
      fun _ => ⟨rfl, Report.parse?_json _, htext⟩⟩

/-- A check in JSON of the working directory. -/
def jsonOptions : CheckOptions := ⟨false, false, .auto, none, [⟨"."⟩], none, some .json, false⟩

/-- An empty directory passes the check, but nothing is written, which is not an array. -/
theorem report_run_emptyDirectory :
    let outcome := run ⟨.directory [], []⟩ false jsonOptions
    outcome.status.exitCode = 0 ∧ outcome.output = "" ∧
      ∀ items, Json.parse? outcome.output ≠ some (.array items) := by
  have facts : (run ⟨.directory [], []⟩ false jsonOptions).status.exitCode = 0 ∧
      (run ⟨.directory [], []⟩ false jsonOptions).output = "" := by decide +kernel
  refine ⟨facts.1, facts.2, ?_⟩
  intro items
  rw [facts.2, Report.parse?_nothing]
  exact nofun

theorem report_run_blankSourceDisk :
    ∃ ws : List Warning, Json.read? (run blankSourceDisk true jsonOptions).output = some ws ∧
      Json.parse? (run blankSourceDisk true jsonOptions).output =
        some (.array (ws.map Json.encode)) ∧ ∃ w ∈ ws, w.severity = .error := by
  have hsettings : loadConfig blankSourceDisk none = .ok .default := by decide +kernel
  have facts : (run blankSourceDisk true jsonOptions).status = .errorsFound ∧
      (run blankSourceDisk true jsonOptions).output ≠ "" := by decide +kernel
  obtain ⟨hstatus, houtput⟩ := facts
  obtain ⟨documents, analysis, carriedOut, hread, hempty, hreported⟩ :=
    report_run blankSourceDisk true jsonOptions hsettings rfl (by rw [hstatus]; decide)
  have hne : documents ≠ [] := fun hnil => houtput (hempty hnil).2.1
  obtain ⟨-, herrors⟩ := (status_run blankSourceDisk true jsonOptions).2.mp hstatus
  obtain ⟨w, hw, herror⟩ := carriedOut.findsErrors_iff.mp herrors
  exact ⟨_, hread.mpr hne, (hreported hne).2.1, w, List.mem_mergeSort.mpr hw, herror⟩

end Check

end PageLint
