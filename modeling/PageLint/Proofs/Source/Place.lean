import Mathlib.Tactic.ByContra
import PageLint.Proofs.Text.Pieces
import PageLint.Proofs.Text.Slice
import PageLint.Source.File

/-!
# Positions as counts

The line index gives the position that counting gives: `positionAt_of_append`
says that the position of a boundary is the number of line feeds before it and
the number of characters after the last of them. From this follow that positions
tell boundaries apart and that offsets move the positions of an embedded text to
where they are in the text around it.
-/

namespace PageLint

/-- The position after some characters at the start of a text. -/
def Position.after (cs : List Char) : Position :=
  ⟨UInt32.ofNat (cs.count '\n'), UInt32.ofNat (Text.column cs)⟩

namespace Line

theorem countWithin_byteLength (pre post : List Char) :
    countWithin (pre ++ post) (Text.byteLength pre) = pre.length := by
  induction pre with
  | nil =>
    cases post with
    | nil => rfl
    | cons c cs => simp [countWithin, Nat.not_le.mpr c.utf8Size_pos]
  | cons c pre ih => simp [countWithin, ih]

theorem start_le_of_mem_place {start : Nat} {pieces : List (List Char)} {line : Line}
    (h : line ∈ place start pieces) : start ≤ line.start := by
  induction pieces generalizing start with
  | nil => cases h
  | cons piece pieces ih =>
    rcases List.mem_cons.mp h with rfl | h
    · exact Nat.le_refl start
    · exact Nat.le_trans (by omega) (ih h)

theorem pairwise_place (start : Nat) (pieces : List (List Char)) :
    (place start pieces).Pairwise (·.start < ·.start) := by
  induction pieces generalizing start with
  | nil => exact List.Pairwise.nil
  | cons piece pieces ih =>
    refine List.Pairwise.cons (fun line h => ?_) (ih _)
    have hle := start_le_of_mem_place h
    change start < line.start
    omega

/-- Among consecutive lines the first of which starts at `start`, the place after
`pre` is in the line of the number of line feeds in `pre`, at the column of `pre`. -/
def Covers (lines : List Line) (start : Nat) (pre : List Char) : Prop :=
  lines.countP (·.start ≤ start + Text.byteLength pre) = pre.count '\n' + 1 ∧
    ∃ line, lines[pre.count '\n']? = some line ∧
      countWithin line.chars (start + Text.byteLength pre - line.start) = Text.column pre

theorem covers_first {pre : List Char} (h : '\n' ∉ pre) (rest : List Char) (start : Nat)
    (pieces : List (List Char)) : Covers (place start ((pre ++ rest) :: pieces)) start pre := by
  have hcount : pre.count '\n' = 0 := List.count_eq_zero.mpr h
  have hlater : ∀ line ∈ place (start + Text.byteLength (pre ++ rest) + 1) pieces,
      ¬ line.start ≤ start + Text.byteLength pre := by
    intro line hline
    have := start_le_of_mem_place hline
    rw [Text.byteLength_append] at this
    omega
  refine ⟨?_, ofChars start (pre ++ rest), ?_, ?_⟩
  · rw [hcount, place, List.countP_cons_of_pos (by simp [ofChars]),
      List.countP_eq_zero.mpr (by simpa using hlater)]
  · rw [hcount]
    rfl
  · change countWithin (pre ++ rest) (start + Text.byteLength pre - start) = _
    rw [Nat.add_sub_cancel_left, countWithin_byteLength, Text.column_of_not_mem h]

theorem covers_cons {piece mid : List Char} (h : '\n' ∉ piece) {start : Nat}
    {pieces : List (List Char)}
    (hmid : Covers (place (start + Text.byteLength piece + 1) pieces)
      (start + Text.byteLength piece + 1) mid) :
    Covers (place start (piece :: pieces)) start (piece ++ '\n' :: mid) := by
  obtain ⟨hcountP, line, hline, hcol⟩ := hmid
  have hcount : (piece ++ '\n' :: mid).count '\n' = mid.count '\n' + 1 := by
    rw [List.count_append, List.count_eq_zero.mpr h, List.count_cons_self, Nat.zero_add]
  have hbytes : start + Text.byteLength (piece ++ '\n' :: mid) =
      start + Text.byteLength piece + 1 + Text.byteLength mid := by
    rw [Text.byteLength_append, Text.byteLength_cons]
    change start + (Text.byteLength piece + (1 + Text.byteLength mid)) = _
    omega
  rw [Covers, hcount, hbytes, place]
  refine ⟨?_, line, ?_, ?_⟩
  · rw [List.countP_cons_of_pos, hcountP]
    apply decide_eq_true
    change start ≤ _
    omega
  · rw [List.getElem?_cons_succ]
    exact hline
  · rw [hcol, Text.column_append_lineFeed]

theorem covers_place (pieces : List (List Char)) (clean : ∀ piece ∈ pieces, '\n' ∉ piece)
    (hne : pieces ≠ []) (start : Nat) {pre post : List Char}
    (h : ['\n'].intercalate pieces = pre ++ post) : Covers (place start pieces) start pre := by
  induction pieces generalizing start pre with
  | nil => exact absurd rfl hne
  | cons piece pieces ih =>
    have hpiece : '\n' ∉ piece := clean piece List.mem_cons_self
    have first : ∀ rest, piece = pre ++ rest →
        Covers (place start (piece :: pieces)) start pre := by
      rintro rest rfl
      exact covers_first (fun hmem => hpiece (List.mem_append_left _ hmem)) rest start pieces
    cases pieces with
    | nil =>
      rw [List.intercalate_singleton] at h
      exact first post h
    | cons second pieces =>
      rw [List.intercalate_cons_cons, List.append_assoc, List.singleton_append] at h
      rcases List.append_eq_append_iff.mp h with ⟨mid, hpre, hmid⟩ | ⟨mid, hmid, -⟩
      · cases mid with
        | nil => exact first [] (by simpa using hpre.symm)
        | cons c mid =>
          obtain ⟨rfl, htail⟩ := List.cons.inj hmid
          rw [hpre]
          exact covers_cons hpiece
            (ih (fun p hp => clean p (List.mem_cons_of_mem _ hp)) (List.cons_ne_nil _ _) _ htail)
      · exact first mid hmid

end Line

namespace SourceFile

variable (file : SourceFile)

theorem border_lines (n : Nat) :
    border (·.start ≤ n) file.lines = file.lines.toList.countP (·.start ≤ n) := by
  apply border_eq_countP
  rw [file.lines_eq, Line.index]
  apply (Line.pairwise_place _ _).imp
  intro line line' hlt hle
  simp only [decide_eq_true_eq] at hle ⊢
  omega

/-- The position of a boundary counts the line feeds before it and the characters
after the last of them. -/
theorem positionAt_of_append {pre post : List Char} (h : file.content.toList = pre ++ post) :
    file.positionAt (Text.byteLength pre) = Position.after pre := by
  obtain ⟨hcount, line, hline, hcol⟩ :=
    Line.covers_place (file.content.toList.splitOn '\n')
      (fun _ => Text.not_mem_of_mem_splitOn) (List.splitOn_ne_nil _ _) 0
      ((List.intercalate_splitOn '\n').trans h)
  rw [Nat.zero_add] at hcount hcol
  have hlines : file.lines.toList = Line.place 0 (file.content.toList.splitOn '\n') := by
    rw [file.lines_eq, Line.index]
  have hget : file.lines[pre.count '\n']? = some line := by
    rw [← Array.getElem?_toList, hlines]
    exact hline
  have hborder : border (·.start ≤ Text.byteLength pre) file.lines - 1 = pre.count '\n' := by
    rw [border_lines, hlines, hcount, Nat.add_sub_cancel]
  rw [positionAt]
  simp only [hborder, hget]
  rw [Line.columnAt_eq_countWithin, hcol]
  rfl

end SourceFile

/-! ## Embedded texts -/

theorem checkedAdd_ofNat {m n : Nat} (h : m + n < UInt32.size) :
    checkedAdd (UInt32.ofNat m) (UInt32.ofNat n) = .ok (UInt32.ofNat (m + n)) := by
  rw [checkedAdd, UInt32.toNat_ofNat_of_lt' (by omega), UInt32.toNat_ofNat_of_lt' (by omega),
    if_pos h, UInt32.ofNat_add]

namespace Position

theorem after_line_toNat {cs : List Char} (short : Text.byteLength cs < UInt32.size) :
    (after cs).line.toNat = cs.count '\n' := by
  apply UInt32.toNat_ofNat_of_lt'
  have hcount := List.count_le_length (a := '\n') (l := cs)
  have hbytes := Text.length_le_byteLength cs
  omega

theorem after_column_toNat {cs : List Char} (short : Text.byteLength cs < UInt32.size) :
    (after cs).column.toNat = Text.column cs := by
  apply UInt32.toNat_ofNat_of_lt'
  have hcolumn := Text.column_le_length cs
  have hbytes := Text.length_le_byteLength cs
  omega

theorem after_line_eq_zero_iff {cs : List Char} (short : Text.byteLength cs < UInt32.size) :
    (after cs).line = 0 ↔ '\n' ∉ cs := by
  rw [← UInt32.toNat_inj, after_line_toNat short]
  exact List.count_eq_zero

/-- The offset of an embedded text moves its positions to where they are in the
text around it. -/
theorem offsetBy_after {pre body : List Char}
    (short : Text.byteLength (pre ++ body) < UInt32.size) :
    (after body).offsetBy (after pre).toOffset = .ok (after (pre ++ body)) := by
  have hbytes := Text.length_le_byteLength (pre ++ body)
  have hcount := List.count_le_length (a := '\n') (l := pre ++ body)
  have hshort : Text.byteLength body < UInt32.size := by
    rw [Text.byteLength_append] at short
    omega
  have hline : checkedAdd (after body).line (after pre).toOffset.line =
      .ok (after (pre ++ body)).line := by
    rw [List.count_append] at hcount
    apply (checkedAdd_ofNat (by omega)).trans
    rw [after, List.count_append, Nat.add_comm]
  rw [offsetBy]
  by_cases h : '\n' ∈ body
  · rw [if_neg (mt (after_line_eq_zero_iff hshort).mp (not_not_intro h)), hline]
    change Except.ok (Position.mk _ (after body).column) = _
    rw [after, after, Text.column_append_of_mem pre h]
  · have hcol : checkedAdd (after body).column (after pre).toOffset.column =
        .ok (after (pre ++ body)).column := by
      have hle := Text.column_le_length (pre ++ body)
      rw [Text.column_append_of_not_mem pre h, ← Text.column_of_not_mem h] at hle
      apply (checkedAdd_ofNat (by omega)).trans
      rw [after, Text.column_append_of_not_mem pre h, Nat.add_comm, Text.column_of_not_mem h]
    rw [if_pos ((after_line_eq_zero_iff hshort).mpr h), hline, hcol]
    rfl

theorem after_lt_after_append {pre more : List Char} (hne : more ≠ [])
    (short : Text.byteLength (pre ++ more) < UInt32.size) : after pre < after (pre ++ more) := by
  have hshort : Text.byteLength pre < UInt32.size := by
    rw [Text.byteLength_append] at short
    omega
  rw [lt_iff, ← UInt32.toNat_inj, UInt32.lt_iff_toNat_lt, UInt32.lt_iff_toNat_lt,
    after_line_toNat hshort, after_line_toNat short, after_column_toNat hshort,
    after_column_toNat short, List.count_append]
  by_cases h : '\n' ∈ more
  · have := List.count_pos_iff.mpr h
    omega
  · have := List.length_pos_iff.mpr hne
    rw [List.count_eq_zero.mpr h, Text.column_append_of_not_mem pre h]
    omega

end Position

/-- Different boundaries of a text have different positions. -/
theorem SourceFile.positionAt_inj {file : SourceFile}
    (short : Text.byteLength file.content.toList < UInt32.size) {j k : Nat}
    (hj : Text.IsBoundary file.content.toList j) (hk : Text.IsBoundary file.content.toList k)
    (h : file.positionAt j = file.positionAt k) : j = k := by
  obtain ⟨pre, post, hpre, rfl⟩ := hj
  obtain ⟨pre', post', hpre', rfl⟩ := hk
  rw [file.positionAt_of_append hpre, file.positionAt_of_append hpre'] at h
  have irrefl : ∀ {a more rest : List Char}, file.content.toList = a ++ more ++ rest →
      Position.after a = Position.after (a ++ more) → more = [] := by
    intro a more rest hcontent heq
    by_contra hne
    rw [hcontent, Text.byteLength_append] at short
    have hlt : Position.after a < Position.after (a ++ more) :=
      Position.after_lt_after_append hne (by omega)
    rw [← heq, Position.lt_iff] at hlt
    simp [UInt32.lt_irrefl] at hlt
  rcases List.append_eq_append_iff.mp (hpre.symm.trans hpre') with ⟨mid, rfl, -⟩ | ⟨mid, rfl, -⟩
  · rw [irrefl hpre' h, List.append_nil]
  · rw [irrefl hpre h.symm, List.append_nil]

end PageLint
