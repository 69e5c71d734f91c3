import PageLint.Diagnostic.Sink

/-!
# A line for each warning

In one-line verbosity a warning with a range is its summary and a line feed. If nothing that
the summary quotes has a line feed, the lines of what is printed are the summaries.
-/

namespace PageLint

namespace Text

/-- The text has no line feed. -/
def OneLine (s : String) : Prop := '\n' ∉ s.toList

instance (s : String) : Decidable (OneLine s) := inferInstanceAs (Decidable (¬ _))

@[simp] theorem oneLine_append {s t : String} : OneLine (s ++ t) ↔ OneLine s ∧ OneLine t := by
  simp [OneLine, String.toList_append]

theorem isDigit_of_mem_toString {n : Nat} {c : Char} (h : c ∈ (toString n).toList) :
    c.isDigit = true := by
  change c ∈ (String.ofList (Nat.toDigits 10 n)).toList at h
  rw [String.toList_ofList] at h
  exact Nat.isDigit_of_mem_toDigits (by decide) (Nat.le_refl 10) h

theorem not_mem_toString {c : Char} (hc : c.isDigit = false) (n : Nat) :
    c ∉ (toString n).toList := by
  intro h
  rw [isDigit_of_mem_toString h] at hc
  cases hc

theorem oneLine_toString (n : Nat) : OneLine (toString n) := not_mem_toString (by decide) n

/-- Texts of a line each that are printed one after the other are the lines of all that is
printed; nothing comes after the last line feed. -/
theorem splitOn_join {ss : List String} (h : ∀ s ∈ ss, OneLine s) :
    (String.join (ss.map (· ++ "\n"))).toList.splitOn '\n' = ss.map String.toList ++ [[]] := by
  induction ss with
  | nil => rfl
  | cons s ss ih =>
    obtain ⟨hs, hrest⟩ := List.forall_mem_cons.mp h
    have hline : (String.join ((s :: ss).map (· ++ "\n"))).toList =
        s.toList ++ '\n' :: (String.join (ss.map (· ++ "\n"))).toList := by
      simp [String.join_cons, String.toList_append]
    have hs' : ∀ c ∈ s.toList, (c == '\n') = false := by
      intro c hc
      exact beq_eq_false_iff_ne.mpr fun hc' => hs (hc' ▸ hc)
    rw [hline, List.map_cons, List.cons_append, ← ih hrest]
    exact List.splitOnP_append_cons_of_forall_mem hs' '\n' (beq_self_eq_true _) _

end Text

/-- What the warning says has no line feed. -/
structure Warning.OneLine (w : Warning) : Prop where
  code : Text.OneLine w.code
  message : Text.OneLine w.message

namespace Printer

theorem oneLine_paint (printer : Printer) (severity : Severity) :
    Text.OneLine (printer.paint severity severity.name) := by
  unfold paint
  split
  · cases severity <;> decide +kernel
  · cases severity <;> decide +kernel

theorem oneLine_summary (printer : Printer) {w : Warning} (h : w.OneLine) {range : SourceRange}
    (hrange : w.range = some range) (hfile : Text.OneLine range.file.text) :
    Text.OneLine (printer.summary w) := by
  have hstart : Text.OneLine (toString range.start) := by
    change Text.OneLine (toString _ ++ "," ++ toString _)
    simp only [Text.oneLine_append, Text.oneLine_toString, true_and, and_true]
    decide
  have hseverity := printer.oneLine_paint w.severity
  simp only [summary, hrange]
  change Text.OneLine (range.file.text ++ "(" ++ toString range.start ++ ") " ++
    printer.paint w.severity w.severity.name ++ " [" ++ w.code ++ "] - " ++ w.message)
  simp only [Text.oneLine_append, hfile, hstart, hseverity, h.code, h.message, true_and, and_true]
  decide

theorem render_oneLine {printer : Printer} (hstyle : printer.style.verbosity = .oneLine)
    {w : Warning} {range : SourceRange} (hrange : w.range = some range) :
    printer.render w = printer.summary w ++ "\n" := by
  simp only [render, sourceBlock, hrange, hstyle]
  rfl

/-- A sink without a limit takes all that is printed. -/
theorem printAll_unlimited (printer : Printer) (written : String) (ws : List Warning) :
    printer.printAll ⟨written, none⟩ ws =
      (⟨written ++ printer.renderAll ws, none⟩, .ok ws.length) := by
  induction ws generalizing written with
  | nil => simp [printAll, renderAll]
  | cons w ws ih =>
    have hwrite : (⟨written, none⟩ : Sink).write (printer.render w) =
        .ok ⟨written ++ printer.render w, none⟩ := rfl
    rw [printAll, hwrite]
    simp only [ih, renderAll, List.map_cons, String.join_cons, String.append_assoc]
    rfl

/-- Warnings of a line each, all with a range in a file whose path has no line feed, are
printed as the lines that are their summaries. -/
theorem lines_renderAll {printer : Printer} (hstyle : printer.style.verbosity = .oneLine)
    {ws : List Warning} (h : ∀ w ∈ ws, w.OneLine ∧
      ∃ range, w.range = some range ∧ Text.OneLine range.file.text) :
    (printer.renderAll ws).toList.splitOn '\n' =
      ws.map (fun w => (printer.summary w).toList) ++ [[]] := by
  have hlines : ws.map printer.render = (ws.map printer.summary).map (· ++ "\n") := by
    rw [List.map_map]
    apply List.map_congr_left
    intro w hw
    obtain ⟨-, range, hrange, -⟩ := h w hw
    exact render_oneLine hstyle hrange
  have hsummaries : ∀ s ∈ ws.map printer.summary, Text.OneLine s := by
    intro s hs
    obtain ⟨w, hw, rfl⟩ := List.mem_map.mp hs
    obtain ⟨hline, range, hrange, hfile⟩ := h w hw
    exact printer.oneLine_summary hline hrange hfile
  rw [renderAll, hlines, Text.splitOn_join hsummaries, List.map_map]
  rfl

end Printer

end PageLint
