import PageLint.Proofs.Analysis.Reading
import PageLint.Proofs.Diagnostic.Block

/-!
# Warnings about a page are shown

A warning about a page is about a part of it that starts and ends between characters, so the
lines of that part can be had from the sources that the page was analyzed with. At full
verbosity they are always printed, each with its underline.
-/

namespace PageLint

theorem Database.loader_add_inMemory (file : SourceFile) :
    (inMemory.add file).loader file.path = .ok file := by
  simp [inMemory, add, loader, load, get?, Path.Same.refl]

/-- The warning is about the part `range` of the file, and it is printed with the lines of that
part, each with its underline, by every printer that gets them from the sources. -/
structure Warning.ShownFrom (sources : Database) (file : SourceFile) (range : SourceRange)
    (w : Warning) : Prop where
  range_eq : w.range = some range
  file_eq : range.file = file.path
  order : range.start ≤ range.stop
  boundaries : ∃ s e, Text.IsBoundary file.content.toList s ∧
    Text.IsBoundary file.content.toList e ∧
    range.start = file.positionAt s ∧ range.stop = file.positionAt e
  lines : (range.excerpt file).map (·.1) = file.lineTexts range.start.line range.stop.line ∧
    (file.lineTexts range.start.line range.stop.line).length =
      range.stop.line.toNat + 1 - range.start.line.toNat ∧
    file.lineTexts range.start.line range.stop.line ≠ []
  block (color : Bool) : let printer : Printer := ⟨sources.loader, ⟨.full, color⟩⟩
    let block := "\n".intercalate ((range.excerpt file).flatMap fun (line, marks) =>
      [line, printer.paint w.severity marks])
    printer.underlinedText range (some w.severity) = .ok block ∧
      printer.render w = "\n\n" ++ block ++ "\n\n" ++ printer.summary w ++ "\n"

theorem Warning.Of.shown {file : SourceFile} {w : Warning} (h : w.Of file)
    (short : Text.byteLength file.content.toList < UInt32.size) :
    ∃ range, w.ShownFrom (Database.inMemory.add file) file range := by
  obtain ⟨range, hrange, hof⟩ := h
  have hle := hof.start_le_stop short
  obtain ⟨hlines, hlast⟩ := hof.lines short
  have hlength := file.length_lineTexts range.start.line hlast
  have hfile : range.file = file.path := by
    obtain ⟨span, -, rfl⟩ := hof
    rfl
  refine ⟨range, hrange, hfile, hle, ?_, ⟨range.map_fst_excerpt, hlength, ?_⟩, ?_⟩
  · obtain ⟨span, hspan, rfl⟩ := hof
    exact ⟨span.start, span.stop, hspan.start, hspan.stop, rfl, rfl⟩
  · rw [← List.length_pos_iff, hlength]
    omega
  · intro color printer block
    have served : printer.load range.file = .ok file := by
      rw [hfile]
      exact Database.loader_add_inMemory file
    have hblock := Printer.underlinedText_of_le served hlines hlast w.severity
    exact ⟨hblock, Printer.render_of_underlinedText rfl hrange hblock⟩

namespace Page

/-- A page with an end tag too many and a function without a name. -/
def unmatchedPage : String := "<p>x\n</b><script>\nfunction () \x7b\n\x7d</script>"

theorem codes_unmatchedPage :
    (analyze ⟨"a.html"⟩ unmatchedPage .parallel [FunctionKeyword.scanner]).map
      (·.warnings.map (·.code)) = .ok ["unmatched-end-tag", "invalid-function-name"] := by
  decide +kernel

end Page

end PageLint
