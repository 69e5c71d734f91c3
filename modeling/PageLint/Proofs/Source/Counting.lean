import Mathlib.Data.List.Infix
import PageLint.Proofs.Source.Lines
import PageLint.Proofs.Source.Order
import PageLint.Proofs.Text.Bytes

/-!
# Positions of all bytes

A byte within a character is at the position of the character, and one past the end of the text at
that of the end. So the position of any byte is what counting up to the last boundary gives, and
later bytes have later positions.
-/

namespace PageLint

namespace Text

/-! ## Boundaries up to a byte -/

theorem exists_mem_inits_iff {cs : List Char} {k : Nat} :
    (∃ pre ∈ cs.inits, byteLength pre = k) ↔ IsBoundary cs k := by
  constructor
  · rintro ⟨pre, hpre, hk⟩
    obtain ⟨post, hpost⟩ := (List.mem_inits _ _).mp hpre
    exact ⟨pre, post, hpost.symm, hk⟩
  · rintro ⟨pre, post, hcs, hk⟩
    exact ⟨pre, (List.mem_inits _ _).mpr ⟨post, hcs.symm⟩, hk⟩

instance (cs : List Char) (k : Nat) : Decidable (IsBoundary cs k) :=
  decidable_of_iff _ exists_mem_inits_iff

/-- The last boundary of `cs` up to byte `k`. -/
def boundaryUpTo (cs : List Char) : Nat → Nat
  | 0 => 0
  | k + 1 => if IsBoundary cs (k + 1) then k + 1 else boundaryUpTo cs k

/-- The boundary that byte `k` of `cs` is moved back to. -/
def boundaryAt (cs : List Char) (k : Nat) : Nat := boundaryUpTo cs (min k (byteLength cs))

variable {cs : List Char}

theorem isBoundary_zero (cs : List Char) : IsBoundary cs 0 := ⟨[], cs, rfl, rfl⟩

theorem isBoundary_boundaryUpTo (cs : List Char) (k : Nat) :
    IsBoundary cs (boundaryUpTo cs k) := by
  induction k with
  | zero => exact isBoundary_zero cs
  | succ k ih =>
    rw [boundaryUpTo]
    split
    · assumption
    · exact ih

theorem boundaryUpTo_le (cs : List Char) (k : Nat) : boundaryUpTo cs k ≤ k := by
  induction k with
  | zero => exact Nat.le_refl 0
  | succ k ih =>
    rw [boundaryUpTo]
    split
    · exact Nat.le_refl _
    · exact Nat.le_succ_of_le ih

theorem le_boundaryUpTo {j k : Nat} (hj : IsBoundary cs j) (h : j ≤ k) : j ≤ boundaryUpTo cs k := by
  induction k with
  | zero => exact h
  | succ k ih =>
    rw [boundaryUpTo]
    split
    · exact h
    · next hk =>
      rcases Nat.le_succ_iff.mp h with h | rfl
      · exact ih h
      · exact absurd hj hk

theorem isBoundary_boundaryAt (cs : List Char) (k : Nat) : IsBoundary cs (boundaryAt cs k) :=
  isBoundary_boundaryUpTo _ _

theorem boundaryAt_le (cs : List Char) (k : Nat) : boundaryAt cs k ≤ k :=
  Nat.le_trans (boundaryUpTo_le _ _) (Nat.min_le_left _ _)

theorem le_boundaryAt_iff {j k : Nat} (hj : IsBoundary cs j) : j ≤ boundaryAt cs k ↔ j ≤ k :=
  ⟨fun h => Nat.le_trans h (boundaryAt_le cs k),
    fun h => le_boundaryUpTo hj (Nat.le_min.mpr ⟨h, hj.le_byteLength⟩)⟩

/-- The column of a text is the length of its last line. The line has no line feed, and it is the
only one or behind a line feed. -/
theorem exists_column_eq (cs : List Char) : ∃ before here, cs = before ++ here ∧
    (∀ c ∈ before.getLast?, c = '\n') ∧ '\n' ∉ here ∧ column cs = here.length := by
  refine ⟨(cs.reverse.dropWhile (· ≠ '\n')).reverse, (cs.reverse.takeWhile (· ≠ '\n')).reverse,
    ?_, ?_, ?_, ?_⟩
  · rw [← List.reverse_append, List.takeWhile_append_dropWhile, List.reverse_reverse]
  · intro c hc
    have hhead := List.head?_dropWhile_not (· ≠ '\n') cs.reverse
    rw [List.getLast?_reverse] at hc
    rw [show (cs.reverse.dropWhile (· ≠ '\n')).head? = some c from hc] at hhead
    simpa using hhead
  · rw [List.mem_reverse]
    exact fun hmem => absurd (List.mem_takeWhile_imp hmem) (by decide)
  · rw [List.length_reverse, column]

/-- The position that counting gives for byte `k` of a text: as line the line feeds before it, and
as column the characters between the last of them and it. -/
structure Counts (content : String) (k : Nat) (p : Position) : Prop where
  line : p.line.toNat = ((bytes content).take k).count 10
  column : ∃ before here after, content.toList = before ++ here ++ after ∧
    byteLength (before ++ here) = k ∧ (∀ c ∈ before.getLast?, c = '\n') ∧ '\n' ∉ here ∧
    p.column.toNat = here.length

end Text

namespace Line

theorem exists_of_mem_charEnds {start e : Nat} {cs : List Char} (h : e ∈ charEnds start cs) :
    ∃ pre post, cs = pre ++ post ∧ e = start + Text.byteLength pre := by
  induction cs generalizing start with
  | nil => cases h
  | cons c cs ih =>
    rcases List.mem_cons.mp h with rfl | h
    · exact ⟨[c], cs, rfl, rfl⟩
    · obtain ⟨pre, post, rfl, rfl⟩ := ih h
      exact ⟨c :: pre, post, rfl, Nat.add_assoc _ _ _⟩

/-- The characters of a line that end up to byte `n` of the text. -/
theorem columnAt_sub {line : Line} {n : Nat} (h : line.start ≤ n) :
    line.columnAt (n - line.start) = (charEnds line.start line.chars).countP (· ≤ n) := by
  rw [columnAt_eq_countWithin, ← countP_charEnds line.start, Nat.add_sub_cancel' h]

end Line

namespace SourceFile

variable {file : SourceFile}

/-- Bytes with the same boundaries up to them have the same position. -/
theorem positionAt_congr {j k : Nat}
    (h : ∀ n, Text.IsBoundary file.content.toList n → (n ≤ j ↔ n ≤ k)) :
    file.positionAt j = file.positionAt k := by
  have hborder : border (·.start ≤ j) file.lines = border (·.start ≤ k) file.lines := by
    rw [border_lines, border_lines]
    refine List.countP_congr fun line hline => ?_
    obtain ⟨n, hn⟩ := List.mem_iff_getElem?.mp hline
    rw [Array.getElem?_toList] at hn
    obtain ⟨_, _, hstands, -⟩ := file.exists_between hn
    simpa using h _ hstands.isBoundary
  obtain ⟨-, line, hline, hstart, hboundary⟩ := file.exists_line j
  have hcolumn : line.columnAt (j - line.start) = line.columnAt (k - line.start) := by
    rw [Line.columnAt_sub hstart, Line.columnAt_sub ((h _ hboundary).mp hstart)]
    refine List.countP_congr fun e he => ?_
    obtain ⟨before, after, hstands, -⟩ := file.exists_between hline
    obtain ⟨pre, post, hchars, rfl⟩ := Line.exists_of_mem_charEnds he
    have hline : Text.StandsAt file.content.toList line.start line.chars :=
      ⟨before, after, hstands.split, hstands.start.symm⟩
    simpa using h _ (hline.isBoundary_add ⟨pre, post, hchars, rfl⟩)
  unfold positionAt
  simp only [← hborder, hline, hcolumn]

theorem positionAt_boundaryAt (file : SourceFile) (k : Nat) :
    file.positionAt (Text.boundaryAt file.content.toList k) = file.positionAt k :=
  positionAt_congr fun _ hn => Text.le_boundaryAt_iff hn

section

variable (short : Text.byteLength file.content.toList < UInt32.size)

include short

theorem positionAt_lt_iff {j k : Nat} (hj : Text.IsBoundary file.content.toList j)
    (hk : Text.IsBoundary file.content.toList k) :
    file.positionAt j < file.positionAt k ↔ j < k := by
  obtain ⟨pre, post, hpre, rfl⟩ := hj
  obtain ⟨pre', post', hpre', rfl⟩ := hk
  rw [file.positionAt_of_append hpre, file.positionAt_of_append hpre']
  exact Position.after_lt_after_iff hpre hpre' short

theorem counts_positionAt (k : Nat) : Text.Counts file.content
    (Text.boundaryAt file.content.toList k) (file.positionAt k) := by
  rw [← file.positionAt_boundaryAt]
  obtain ⟨pre, post, hpre, hk⟩ := Text.isBoundary_boundaryAt file.content.toList k
  rw [← hk, file.positionAt_of_append hpre]
  have hbytes := congrArg Text.byteLength hpre
  rw [Text.byteLength_append] at hbytes
  have hshort : Text.byteLength pre < UInt32.size := by omega
  refine ⟨?_, ?_⟩
  · rw [Position.after_line_toNat hshort, Text.take_bytes hpre, Text.count_flatMap_utf8EncodeChar]
  · obtain ⟨before, here, hsplit, hbefore, hhere, hcolumn⟩ := Text.exists_column_eq pre
    rw [Position.after_column_toNat hshort]
    exact ⟨before, here, post, hsplit ▸ hpre, hsplit ▸ rfl, hbefore, hhere, hcolumn⟩

/-- The line index agrees with counting, and so positions are in the order of their bytes. -/
theorem positionAt_counts :
    (∀ k, Text.Counts file.content (Text.boundaryAt file.content.toList k) (file.positionAt k)) ∧
    (∀ j k, j ≤ k → file.positionAt j ≤ file.positionAt k) ∧
    ∀ j k, Text.IsBoundary file.content.toList j → Text.IsBoundary file.content.toList k →
      j < k → file.positionAt j < file.positionAt k := by
  refine ⟨counts_positionAt short, ?_, fun j k hj hk => (positionAt_lt_iff short hj hk).mpr⟩
  intro j k hle
  rw [← file.positionAt_boundaryAt j, ← file.positionAt_boundaryAt k, ← Position.not_lt,
    positionAt_lt_iff short (Text.isBoundary_boundaryAt _ _) (Text.isBoundary_boundaryAt _ _),
    Nat.not_lt, Text.le_boundaryAt_iff (Text.isBoundary_boundaryAt _ _)]
  exact Nat.le_trans (Text.boundaryAt_le _ _) hle

end

theorem positionAt_counts_accent :
    let file := ofContent ⟨"a.html"⟩ "é\nx"
    Text.boundaryAt file.content.toList 1 = 0 ∧ Text.boundaryAt file.content.toList 99 = 4 ∧
      Text.Counts file.content 4 (file.positionAt 99) ∧
      file.positionAt 1 ≤ file.positionAt 2 ∧ file.positionAt 2 < file.positionAt 3 := by
  intro file
  have hinside : Text.boundaryAt file.content.toList 1 = 0 := by decide +kernel
  have hpast : Text.boundaryAt file.content.toList 99 = 4 := by decide +kernel
  have hshort : Text.byteLength file.content.toList < UInt32.size := by decide +kernel
  obtain ⟨hcounts, hmono, hstrict⟩ := positionAt_counts hshort
  refine ⟨hinside, hpast, hpast ▸ hcounts 99, hmono 1 2 (by decide), ?_⟩
  exact hstrict 2 3 (by decide +kernel) (by decide +kernel) (by decide)

end SourceFile

end PageLint
