import PageLint.Proofs.Diagnostic.Underline

/-!
# The source in front of a summary

At full verbosity a warning is printed with an excerpt of its file: the lines of its range that
the file has, each with its underline. All else that is printed is what one-line verbosity
prints, so that a warning whose source is not to be had keeps its summary.
-/

namespace PageLint

namespace SourceRange

variable {range : SourceRange} {file : SourceFile}

/-- The lines from the first to the last of a range that a file has, each with its underline. -/
def excerpt (range : SourceRange) (file : SourceFile) : List (String × String) :=
  (file.numbered.filter fun (_, n) => range.start.line.toNat ≤ n ∧ n ≤ range.stop.line.toNat).map
    fun (line, n) => (line, underline line (UInt32.ofNat n) range)

theorem excerpt_eq_pairs : range.excerpt file =
    Printer.pairs range range.start.line (file.lineTexts range.start.line range.stop.line) := by
  rw [excerpt, SourceFile.numbered, filter_zipIdx_between, Printer.pairs, file.lineTexts_eq,
    List.map_take, List.map_drop, List.mapIdx_eq_zipIdx_map, Nat.sub_zero,
    Nat.max_eq_left (Nat.zero_le _), List.zipIdx_eq_map_add, List.map_map]
  apply List.map_congr_left
  rintro ⟨line, n⟩ -
  simp only [Function.comp_apply, UInt32.ofNat_add, UInt32.ofNat_toNat]

theorem map_fst_excerpt : (range.excerpt file).map (·.1) =
    file.lineTexts range.start.line range.stop.line := by
  rw [excerpt_eq_pairs, Printer.map_fst_pairs]

theorem excerpt_eq_nil_iff : range.excerpt file = [] ↔
    range.stop.line < range.start.line ∨
      range.start.line.toNat ∉ file.numbered.map (·.2) := by
  rw [← List.length_eq_zero_iff, excerpt_eq_pairs, Printer.pairs, List.length_mapIdx,
    file.lineTexts_eq, List.length_map, List.length_take, List.length_drop,
    SourceFile.numbered, List.zipIdx_map_snd, List.mem_range'_1, List.length_map,
    UInt32.lt_iff_toNat_lt]
  omega

end SourceRange

/-- The excerpt that is printed with a warning at full verbosity. It is empty if the warning has
no range, or if the file of the range is not to be had. -/
def Warning.excerpt (load : Loader) (w : Warning) : List (String × String) :=
  match w.range with
  | none => []
  | some range =>
    match load range.file with
    | .error _ => []
    | .ok file => range.excerpt file

theorem Warning.excerpt_eq_nil_iff {load : Loader} {w : Warning} : w.excerpt load = [] ↔
    w.range = none ∨ ∃ range, w.range = some range ∧
      ((∃ e, load range.file = .error e) ∨ range.stop.line < range.start.line ∨
        ∃ file, load range.file = .ok file ∧
          range.start.line.toNat ∉ file.numbered.map (·.2)) := by
  unfold excerpt
  cases w.range with
  | none => simp
  | some range =>
    cases hload : load range.file with
    | error e => simp [hload]
    | ok file => simp [hload, SourceRange.excerpt_eq_nil_iff]

theorem Warning.exists_of_excerpt_ne_nil {load : Loader} {w : Warning} (h : w.excerpt load ≠ []) :
    ∃ range file, w.range = some range ∧ load range.file = .ok file ∧
      w.excerpt load = range.excerpt file := by
  unfold excerpt at h ⊢
  cases hrange : w.range with
  | none =>
    rw [hrange] at h
    exact absurd rfl h
  | some range =>
    rw [hrange] at h
    cases hload : load range.file with
    | error e => simp [hload] at h
    | ok file => exact ⟨range, file, rfl, hload, by simp [hload]⟩

namespace Printer

variable {printer : Printer} {range : SourceRange} {file : SourceFile}

theorem underlinedText_of_load (served : printer.load range.file = .ok file)
    (severity : Option Severity) : printer.underlinedText range severity =
      if range.excerpt file = [] then
        .error (.unavailable range.file
          s!"line {range.start.line.toNat} is past the end of the file")
      else .ok ("\n".intercalate ((range.excerpt file).flatMap fun (line, marks) =>
        [line, severity.elim marks (printer.paint · marks)])) := by
  have hempty : (file.lineTexts range.start.line range.stop.line).isEmpty = true ↔
      range.excerpt file = [] := by
    rw [SourceRange.excerpt_eq_pairs, pairs, List.isEmpty_iff, List.mapIdx_eq_nil_iff]
  simp only [underlinedText, Loader.lines, served]
  change (if _ then _ else _) = _
  rw [underlinedLines_eq, ← SourceRange.excerpt_eq_pairs]
  simp only [hempty]

/-- The lines of an excerpt and their underlines, painted as the style asks for. -/
def excerptText (printer : Printer) (w : Warning) : String :=
  "\n".intercalate ((w.excerpt printer.load).flatMap fun (line, marks) =>
    [line, printer.paint w.severity marks])

theorem sourceBlock_full (hfull : printer.style.verbosity = .full) (w : Warning) :
    printer.sourceBlock w =
      if w.excerpt printer.load = [] then ""
      else "\n\n" ++ printer.excerptText w ++ "\n\n" := by
  unfold sourceBlock excerptText Warning.excerpt
  rw [hfull]
  cases w.range with
  | none => rfl
  | some range =>
    cases hload : printer.load range.file with
    | error e =>
      simp only [underlinedText, Loader.lines, hload]
      rfl
    | ok file =>
      dsimp only
      rw [underlinedText_of_load hload]
      by_cases hnil : range.excerpt file = []
      · simp only [if_pos hnil, hload]
      · simp only [if_neg hnil, hload]
        rfl

theorem sourceBlock_oneLine (hbrief : printer.style.verbosity = .oneLine) (w : Warning) :
    printer.sourceBlock w = "" := by
  unfold sourceBlock
  rw [hbrief]
  cases w.range with
  | none => rfl
  | some range => rfl

/-- A warning is printed as its source, if there is any, and what is said of it; only a warning
without a range has a notice in front. -/
theorem render_eq (printer : Printer) (w : Warning) : printer.render w =
    printer.sourceBlock w ++ ((if w.range = none then missingRangeNotice w.code else "") ++
      printer.summary w ++ "\n") := by
  unfold render sourceBlock
  cases hrange : w.range with
  | none => simp [toString]
  | some range => simp [toString, String.append_assoc]

/-- A warning at full verbosity is printed as at one-line verbosity, with a block in front. The
block is empty if there is nothing to show: no range, no file, a range that stops above its
start, or one that starts below the last line. Else it shows the lines of the range that the
file has, each with its underline. -/
theorem render_full (load : Loader) (color : Bool) (w : Warning) :
    let full : Printer := ⟨load, ⟨.full, color⟩⟩
    let brief : Printer := ⟨load, ⟨.oneLine, color⟩⟩
    brief.render w =
        (if w.range = none then missingRangeNotice w.code else "") ++ brief.summary w ++ "\n" ∧
      ∃ block, full.render w = block ++ brief.render w ∧
        (block = "" ↔ w.range = none ∨ ∃ range, w.range = some range ∧
          ((∃ e, load range.file = .error e) ∨ range.stop.line < range.start.line ∨
            ∃ file, load range.file = .ok file ∧
              range.start.line.toNat ∉ file.numbered.map (·.2))) ∧
        (block ≠ "" → ∃ range file, w.range = some range ∧ load range.file = .ok file ∧
          block = "\n\n" ++ "\n".intercalate ((file.numbered.filter fun (_, n) =>
            range.start.line.toNat ≤ n ∧ n ≤ range.stop.line.toNat).flatMap fun (line, n) =>
              [line, full.paint w.severity (underline line (UInt32.ofNat n) range)]) ++
                "\n\n") := by
  intro full brief
  have hbrief := brief.render_eq w
  rw [sourceBlock_oneLine rfl, String.empty_append] at hbrief
  refine ⟨hbrief, full.sourceBlock w, ?_, ?_, ?_⟩
  · rw [hbrief, render_eq full]
    rfl
  · rw [sourceBlock_full rfl, ← Warning.excerpt_eq_nil_iff]
    by_cases hnil : w.excerpt load = []
    · rw [if_pos hnil]
      exact iff_of_true rfl hnil
    · rw [if_neg hnil]
      exact iff_of_false (by simp) hnil
  · intro hne
    rw [sourceBlock_full rfl] at hne ⊢
    have hsome : w.excerpt load ≠ [] := fun hnil => hne (if_pos hnil)
    obtain ⟨range, file, hrange, hload, hexcerpt⟩ := Warning.exists_of_excerpt_ne_nil hsome
    refine ⟨range, file, hrange, hload, ?_⟩
    rw [if_neg hsome, excerptText, hexcerpt, SourceRange.excerpt, List.flatMap_map]

end Printer

end PageLint
