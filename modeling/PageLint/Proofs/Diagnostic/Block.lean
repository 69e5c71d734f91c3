import PageLint.Proofs.Diagnostic.Excerpt
import PageLint.Proofs.Markup.Ranges

/-!
# Warnings with their source

A warning about a span of a file that the loader has is printed with the lines that the span
touches.
-/

namespace PageLint

namespace Printer

variable {printer : Printer} {file : SourceFile}

/-- The lines of a range that stops where it starts or further on are had from its file. -/
theorem underlinedText_of_le {range : SourceRange} (served : printer.load range.file = .ok file)
    (order : range.start.line.toNat ≤ range.stop.line.toNat)
    (last : range.stop.line.toNat ≤ file.content.toList.count '\n') (severity : Severity) :
    printer.underlinedText range (some severity) =
      .ok ("\n".intercalate ((range.excerpt file).flatMap fun (line, marks) =>
        [line, printer.paint severity marks])) := by
  have hne : range.excerpt file ≠ [] := by
    intro hnil
    have hlength := file.length_lineTexts range.start.line last
    rw [← range.map_fst_excerpt, hnil, List.map_nil, List.length_nil] at hlength
    omega
  rw [underlinedText_of_load served, if_neg hne]
  rfl

theorem render_of_underlinedText {w : Warning} {range : SourceRange} {block : String}
    (full : printer.style.verbosity = .full) (hrange : w.range = some range)
    (h : printer.underlinedText range (some w.severity) = .ok block) :
    printer.render w = "\n\n" ++ block ++ "\n\n" ++ printer.summary w ++ "\n" := by
  simp only [render, sourceBlock, hrange, full, h]
  rfl

end Printer

/-- The lines of a warning about a span of a file. -/
theorem SourceRange.Of.lines {file : SourceFile} {range : SourceRange} (h : range.Of file)
    (short : Text.byteLength file.content.toList < UInt32.size) :
    range.start.line.toNat ≤ range.stop.line.toNat ∧
      range.stop.line.toNat ≤ file.content.toList.count '\n' := by
  have hle := h.start_le_stop short
  obtain ⟨span, -, rfl⟩ := h
  refine ⟨?_, (file.positionAt_le span.stop).1⟩
  rcases Position.le_iff.mp hle with hlt | ⟨heq, -⟩
  · exact Nat.le_of_lt (UInt32.lt_iff_toNat_lt.mp hlt)
  · exact Nat.le_of_eq (congrArg UInt32.toNat heq)

end PageLint
