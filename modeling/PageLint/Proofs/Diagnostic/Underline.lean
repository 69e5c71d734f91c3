import PageLint.Diagnostic.Printer
import PageLint.Proofs.Markup.Located
import PageLint.Proofs.Source.Lines
import PageLint.Proofs.Source.Order

/-!
# What an underline marks

The mark under a character tells whether the range holds it. As positions are ordered
like bytes, the marks under the lines of a span of a file are exactly those under the
characters of the span.
-/

namespace PageLint

theorem mark_not_mem_indentation (line : List Char) (column : Nat) :
    mark ∉ indentation line column := by
  intro h
  obtain ⟨c, -, hc⟩ := List.mem_map.mp h
  split at hc
  · cases hc
  · cases hc

theorem getElem?_replicate_mark {n k : Nat} : (List.replicate n mark)[k]? = some mark ↔ k < n := by
  rw [List.getElem?_replicate]
  split
  · next h => exact iff_of_true rfl h
  · next h => exact iff_of_false (Option.some_ne_none _).symm h

/-- What is under a character of a line: a mark if the range has started by then and has not
stopped. -/
theorem getElem?_underline_iff {line : String} {number : UInt32} {range : SourceRange}
    (h : range.start < range.stop) {k : Nat} (hk : k < line.toList.length) :
    (underline line number range).toList[k]? = some mark ↔
      (number = range.start.line → range.start.column.toNat ≤ k) ∧
        (number = range.stop.line → k < range.stop.column.toNat) := by
  unfold underline
  -- on the first line the marks follow the indentation, on all others they start at once
  by_cases hstart : number = range.start.line
  · have hlength : (indentation line.toList range.start.column.toNat).length =
        min range.start.column.toNat line.toList.length := by
      rw [indentation, List.length_map, List.length_take]
    rw [if_pos hstart, String.toList_ofList]
    by_cases hfirst : range.start.column.toNat ≤ k
    · rw [List.getElem?_append_right (by omega), getElem?_replicate_mark, hlength]
      rw [Position.lt_iff_toNat] at h
      split
      · next hstop =>
        have hline := congrArg UInt32.toNat hstop
        constructor
        · intro hlt
          exact ⟨fun _ => hfirst, fun _ => by omega⟩
        · rintro ⟨-, hlt⟩
          have hlt := hlt (hstart.trans hstop.symm)
          omega
      · next hstop =>
        apply iff_of_true
        · omega
        · exact ⟨fun _ => hfirst, fun heq => absurd (heq.symm.trans hstart) hstop⟩
    · have hmark : (indentation line.toList range.start.column.toNat)[k]? ≠ some mark :=
        fun h => mark_not_mem_indentation _ _ (List.mem_of_getElem? h)
      rw [List.getElem?_append_left (by omega)]
      exact iff_of_false hmark fun h => hfirst (h.1 hstart)
  · rw [if_neg hstart]
    by_cases hstop : number = range.stop.line
    · rw [if_pos hstop, String.toList_ofList, getElem?_replicate_mark]
      exact ⟨fun hlt => ⟨fun h => absurd h hstart, fun _ => hlt⟩, fun h => h.2 hstop⟩
    · rw [if_neg hstop, String.toList_ofList, getElem?_replicate_mark]
      exact iff_of_true hk ⟨fun h => absurd h hstart, fun h => absurd h hstop⟩

/-- On a line from the first to the last of a range, only the ends of the range that are on the
line bound the columns that it holds. -/
theorem SourceRange.contains_iff {range : SourceRange} {number column : UInt32}
    (first : range.start.line ≤ number) (last : number ≤ range.stop.line) :
    range.Contains ⟨number, column⟩ ↔
      (number = range.start.line → range.start.column.toNat ≤ column.toNat) ∧
        (number = range.stop.line → column.toNat < range.stop.column.toNat) := by
  rw [UInt32.le_iff_toNat_le] at first last
  rw [Contains, ← Position.not_lt, Position.lt_iff_toNat, Position.lt_iff_toNat,
    ← UInt32.toNat_inj, ← UInt32.toNat_inj]
  dsimp only
  omega

/-- The first line of a range is indented below its characters, a tab below a tab. -/
theorem getElem?_underline_indented {line : String} {range : SourceRange} {k : Nat} {c : Char}
    (hk : k < range.start.column.toNat) (hc : line.toList[k]? = some c) :
    (underline line range.start.line range).toList[k]? =
      some (if c = '\t' then '\t' else ' ') := by
  have hindented : (indentation line.toList range.start.column.toNat)[k]? =
      some (if c = '\t' then '\t' else ' ') := by
    rw [indentation, List.getElem?_map, List.getElem?_take_of_lt hk, hc]
    rfl
  have hlt := (List.getElem?_eq_some_iff.mp hindented).1
  simp only [underline, if_true]
  rw [String.toList_ofList, List.getElem?_append_left hlt, hindented]

/-- Whatever the range is, its first line has a mark. -/
theorem mark_mem_underline (line : String) (range : SourceRange) :
    mark ∈ (underline line range.start.line range).toList := by
  simp only [underline, if_true]
  rw [String.toList_ofList]
  apply List.mem_append_right
  rw [List.mem_replicate]
  exact ⟨by omega, rfl⟩

theorem mem_underline {line : String} {number : UInt32} {range : SourceRange} {c : Char}
    (h : c ∈ (underline line number range).toList) : c = mark ∨ c = '\t' ∨ c = ' ' := by
  have hmarks : ∀ n, c ∈ List.replicate n mark → c = mark := fun _ => List.eq_of_mem_replicate
  unfold underline at h
  split at h
  · rw [String.toList_ofList, List.mem_append] at h
    rcases h with h | h
    · obtain ⟨c', -, rfl⟩ := List.mem_map.mp h
      split
      · exact Or.inr (Or.inl rfl)
      · exact Or.inr (Or.inr rfl)
    · exact Or.inl (hmarks _ h)
  · split at h
    · rw [String.toList_ofList] at h
      exact Or.inl (hmarks _ h)
    · rw [String.toList_ofList] at h
      exact Or.inl (hmarks _ h)

/-- An underline agrees with its range: on every line from the first to the last of a range that
holds something, the characters with a mark below them are those at the positions that the range
contains. The first line is indented below its characters, and it has a mark even if the range
holds nothing. -/
theorem underline_agrees_contains (line : String) (range : SourceRange) :
    (range.start < range.stop → ∀ number column : UInt32, range.start.line ≤ number →
      number ≤ range.stop.line → column.toNat < line.toList.length →
        ((underline line number range).toList[column.toNat]? = some mark ↔
          range.Contains ⟨number, column⟩)) ∧
    (∀ k c, k < range.start.column.toNat → line.toList[k]? = some c →
      (underline line range.start.line range).toList[k]? =
        some (if c = '\t' then '\t' else ' ')) ∧
    mark ∈ (underline line range.start.line range).toList := by
  refine ⟨?_, fun k c => getElem?_underline_indented, mark_mem_underline line range⟩
  intro h number column first last hcolumn
  rw [getElem?_underline_iff h hcolumn, SourceRange.contains_iff first last]

/-- A range that stops far behind the end of its second line. -/
theorem underline_agrees_contains_pastEnd :
    let range : SourceRange := ⟨⟨"a.html"⟩, ⟨3, 2⟩, ⟨4, 9⟩⟩
    range.start < range.stop ∧
      ((underline "\té" 4 range).toList[1]? = some mark ↔ range.Contains ⟨4, 1⟩) ∧
      (underline "\tab" 3 range).toList[0]? = some '\t' ∧
      mark ∈ (underline "" 3 range).toList := by
  intro range
  have h : range.start < range.stop := by decide
  obtain ⟨hmarks, -, -⟩ := underline_agrees_contains "\té" range
  obtain ⟨-, hindented, -⟩ := underline_agrees_contains "\tab" range
  obtain ⟨-, -, hmark⟩ := underline_agrees_contains "" range
  exact ⟨h, hmarks h 4 1 (by decide) (by decide) (by decide), hindented 0 '\t' (by decide) rfl,
    hmark⟩

/-- Under a character of a line that a span touches there is a mark exactly if the character
is one of the span. -/
theorem getElem?_underline_span {path : Path} {cs pre post pre' post' before rest : List Char}
    (short : Text.byteLength cs < UInt32.size) (hpre : cs = pre ++ post) (hpre' : cs = pre' ++ post')
    (hlt : Text.byteLength pre < Text.byteLength pre') (hbefore : cs = before ++ rest)
    (first : pre.count '\n' ≤ before.count '\n') (last : before.count '\n' ≤ pre'.count '\n')
    {line : String} {number : UInt32} (hnumber : number.toNat = before.count '\n')
    (hcolumn : Text.column before < line.toList.length) :
    (underline line number ⟨path, Position.after pre, Position.after pre'⟩).toList[
        Text.column before]? = some mark ↔
      Text.byteLength pre ≤ Text.byteLength before ∧
        Text.byteLength before < Text.byteLength pre' := by
  have hbytes := congrArg Text.byteLength hpre
  have hbytes' := congrArg Text.byteLength hpre'
  rw [Text.byteLength_append] at hbytes hbytes'
  have hrange := (Position.after_lt_after_iff hpre hpre' short).mpr hlt
  have hstart := Text.byteLength_lt_iff hbefore hpre
  have hstop := Text.byteLength_lt_iff hbefore hpre'
  rw [getElem?_underline_iff hrange hcolumn, ← UInt32.toNat_inj, ← UInt32.toNat_inj, hnumber,
    Position.after_line_toNat (by omega), Position.after_line_toNat (by omega),
    Position.after_column_toNat (by omega), Position.after_column_toNat (by omega)]
  omega

namespace Printer

variable {printer : Printer} {range : SourceRange}

/-- The lines from `number` on with the underlines that a range gives them. -/
def pairs (range : SourceRange) (number : UInt32) (lines : List String) : List (String × String) :=
  lines.mapIdx fun n line => (line, underline line (number + UInt32.ofNat n) range)

theorem underlinedLines_eq (severity : Option Severity) (number : UInt32) (lines : List String) :
    printer.underlinedLines range severity number lines =
      (pairs range number lines).flatMap fun (line, marks) =>
        [line, severity.elim marks (printer.paint · marks)] := by
  induction lines generalizing number with
  | nil => rfl
  | cons line lines ih =>
    have hnumber : ∀ n, number + 1 + UInt32.ofNat n = number + UInt32.ofNat (n + 1) := by
      intro n
      rw [UInt32.ofNat_add, UInt32.add_assoc, UInt32.add_comm 1]
      rfl
    have hzero : number + UInt32.ofNat 0 = number := UInt32.add_zero number
    simp only [underlinedLines, ih, pairs, List.mapIdx_cons, List.flatMap_cons, hnumber, hzero]
    cases severity with
    | none => rfl
    | some severity => rfl

theorem map_fst_pairs (number : UInt32) (lines : List String) :
    (pairs range number lines).map (·.1) = lines := by
  apply List.ext_getElem?
  intro n
  rw [List.getElem?_map, pairs, List.getElem?_mapIdx, Option.map_map]
  exact Option.map_id'

/-- The lines that a span of a file touches are shown as they are, a carriage return at their
end apart, and the characters with a mark under them are those of the span. -/
theorem underlinedText_span {path : Path} {file : SourceFile} (served : printer.load path = .ok file)
    (short : Text.byteLength file.content.toList < UInt32.size) {s e : Nat}
    (hs : Text.IsBoundary file.content.toList s) (he : Text.IsBoundary file.content.toList e)
    (hlt : s < e) :
    let first := (file.positionAt s).line.toNat
    let last := (file.positionAt e).line.toNat
    ∃ pairs : List (String × String),
      printer.underlinedText ⟨path, file.positionAt s, file.positionAt e⟩ none =
        .ok ("\n".intercalate (pairs.flatMap fun (line, marks) => [line, marks])) ∧
      first ≤ last ∧ pairs.length = last + 1 - first ∧
      pairs.map (·.1) = (((file.content.toList.splitOn '\n').drop first).take
        (last + 1 - first)).map (fun piece => String.ofList (Text.withoutReturn piece)) ∧
      ∀ n line marks, pairs[n]? = some (line, marks) →
        ∀ k c, line.toList[k]? = some c →
          ∃ before after, file.content.toList = before ++ c :: after ∧
            before.count '\n' = first + n ∧ Text.column before = k ∧
            (marks.toList[k]? = some mark ↔
              s ≤ Text.byteLength before ∧ Text.byteLength before < e) := by
  obtain ⟨pre, post, hpre, rfl⟩ := hs
  obtain ⟨pre', post', hpre', rfl⟩ := he
  have hbytes := congrArg Text.byteLength hpre
  have hbytes' := congrArg Text.byteLength hpre'
  rw [Text.byteLength_append] at hbytes hbytes'
  rw [file.positionAt_of_append hpre, file.positionAt_of_append hpre']
  intro first last
  have hfirst : first = pre.count '\n' := Position.after_line_toNat (by omega)
  have hlast : last = pre'.count '\n' := Position.after_line_toNat (by omega)
  have horder : first ≤ last := by
    rcases (Text.byteLength_lt_iff hpre hpre').mp hlt with h | ⟨h, -⟩
    · omega
    · omega
  have hcount : last ≤ file.content.toList.count '\n' := by
    rw [hlast, hpre', List.count_append]
    exact Nat.le_add_right _ _
  have hlength := file.length_lineTexts (Position.after pre).line hcount
  refine ⟨pairs ⟨path, Position.after pre, Position.after pre'⟩ (Position.after pre).line
    (file.lineTexts (Position.after pre).line (Position.after pre').line), ?_, horder, ?_, ?_, ?_⟩
  · have hsome : (file.lineTexts (Position.after pre).line (Position.after pre').line).isEmpty =
        false := by
      rw [List.isEmpty_eq_false_iff, ← List.length_pos_iff, hlength]
      change 0 < last + 1 - first
      omega
    simp only [underlinedText, Loader.lines, served]
    change (if _ then _ else _) = _
    rw [hsome, underlinedLines_eq]
    rfl
  · rw [pairs, List.length_mapIdx, hlength]
  · rw [map_fst_pairs, file.lineTexts_eq]
  · intro n line marks hpair k c hc
    rw [pairs, List.getElem?_mapIdx] at hpair
    obtain ⟨line', hline, heq⟩ := Option.map_eq_some_iff.mp hpair
    obtain ⟨rfl, rfl⟩ := Prod.mk.inj heq
    obtain ⟨hle, before, after, hcontent, hlineOf, rfl⟩ :=
      file.exists_of_lineTexts_getElem? hline hc
    have hfits : first + n < UInt32.size := Nat.lt_of_le_of_lt hle (UInt32.toNat_lt _)
    have hnumber : ((Position.after pre).line + UInt32.ofNat n).toNat = before.count '\n' := by
      rw [UInt32.toNat_add, UInt32.toNat_ofNat_of_lt' (by omega), hlineOf]
      exact Nat.mod_eq_of_lt hfits
    refine ⟨before, after, hcontent, hlineOf, rfl, ?_⟩
    apply getElem?_underline_span short hpre hpre' hlt hcontent _ _ hnumber
    · exact (List.getElem?_eq_some_iff.mp hc).1
    · omega
    · omega

/-- A file with a tab, with a character of two bytes and with a carriage return. -/
def returnFile : SourceFile := SourceFile.ofContent ⟨"a.html"⟩ "a\té\r\n<b>\n"

/-- A printer that has the file in memory. -/
def returnPrinter : Printer := ⟨(Database.inMemory.add returnFile).loader, PrintStyle.default⟩

theorem underlinedText_span_returnFile :
    returnPrinter.load returnFile.path = .ok returnFile ∧
      Text.byteLength returnFile.content.toList < UInt32.size ∧
      Text.IsBoundary returnFile.content.toList 2 ∧ Text.IsBoundary returnFile.content.toList 7 ∧
      ∃ pairs : List (String × String),
        returnPrinter.underlinedText (returnFile.rangeOf ⟨2, 7⟩) none =
          .ok ("\n".intercalate (pairs.flatMap fun (line, marks) => [line, marks])) ∧
        pairs.map (·.1) = ["a\té", "<b>"] := by
  have served : returnPrinter.load returnFile.path = .ok returnFile := rfl
  have short : Text.byteLength returnFile.content.toList < UInt32.size := by decide +kernel
  have hs : Text.IsBoundary returnFile.content.toList 2 :=
    ⟨['a', '\t'], ['é', '\r', '\n', '<', 'b', '>', '\n'], by decide +kernel, rfl⟩
  have he : Text.IsBoundary returnFile.content.toList 7 :=
    ⟨['a', '\t', 'é', '\r', '\n', '<'], ['b', '>', '\n'], by decide +kernel, by decide +kernel⟩
  obtain ⟨pairs, htext, -, -, hlines, -⟩ := underlinedText_span served short hs he (by decide)
  refine ⟨served, short, hs, he, pairs, htext, hlines.trans ?_⟩
  decide +kernel

end Printer

end PageLint
