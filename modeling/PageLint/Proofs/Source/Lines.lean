import PageLint.Proofs.Source.Place

/-!
# The lines of a text

A text has one line more than line feeds, and a line is the piece of the text that
stands after as many line feeds as its number says.
-/

namespace PageLint

/-- The items of a list with a number from `first` to `last`, counted from `k` on. -/
theorem filter_zipIdx_between {α : Type} (xs : List α) (first last k : Nat) :
    (xs.zipIdx k).filter (fun (_, n) => first ≤ n ∧ n ≤ last) =
      ((xs.drop (first - k)).take (last + 1 - max first k)).zipIdx (max first k) := by
  induction xs generalizing k with
  | nil => simp
  | cons x xs ih =>
    rw [List.zipIdx_cons, List.filter_cons, ih]
    -- the first item is passed over, kept, or already behind the last that is kept
    by_cases hfirst : k < first
    · have hdrop : first - k = first - (k + 1) + 1 := by omega
      rw [if_neg (by simp; omega), Nat.max_eq_left (by omega), Nat.max_eq_left (by omega), hdrop,
        List.drop_succ_cons]
    · have hle : first ≤ k := Nat.not_lt.mp hfirst
      rw [Nat.max_eq_right hle, Nat.max_eq_right (Nat.le_succ_of_le hle),
        Nat.sub_eq_zero_of_le hle, Nat.sub_eq_zero_of_le (Nat.le_succ_of_le hle),
        List.drop_zero, List.drop_zero]
      by_cases hlast : k ≤ last
      · have htake : last + 1 - k = last + 1 - (k + 1) + 1 := by omega
        rw [if_pos (by simp; omega), htake, List.take_succ_cons, List.zipIdx_cons]
      · rw [if_neg (by simp; omega), Nat.sub_eq_zero_of_le (by omega),
          Nat.sub_eq_zero_of_le (by omega)]
        rfl

namespace Line

theorem chars_place (start : Nat) (pieces : List (List Char)) :
    (place start pieces).map (·.chars) = pieces := by
  induction pieces generalizing start with
  | nil => rfl
  | cons piece pieces ih =>
    rw [place, List.map_cons, ih]
    rfl

/-- The line is what stands in `cs` between `before` and `after`: it starts behind a line feed or
at the start of the text, and runs up to the next line feed or the end. -/
structure Between (line : Line) (cs before after : List Char) : Prop where
  split : cs = before ++ line.chars ++ after
  start : line.start = Text.byteLength before
  first : Text.column before = 0
  whole : '\n' ∉ line.chars
  stop : ∀ c ∈ after.head?, c = '\n'

theorem Between.isBoundary {line : Line} {cs before after : List Char}
    (h : line.Between cs before after) : Text.IsBoundary cs line.start :=
  ⟨before, line.chars ++ after, by rw [h.split, List.append_assoc], h.start.symm⟩

theorem exists_of_place {pieces : List (List Char)} (clean : ∀ piece ∈ pieces, '\n' ∉ piece)
    {start n : Nat} {line : Line} (h : (place start pieces)[n]? = some line) :
    ∃ before after, ['\n'].intercalate pieces = before ++ line.chars ++ after ∧
      line.start = start + Text.byteLength before ∧ before.count '\n' = n ∧
      Text.column before = 0 ∧ '\n' ∉ line.chars ∧ ∀ c ∈ after.head?, c = '\n' := by
  induction pieces generalizing start n with
  | nil => cases h
  | cons piece pieces ih =>
    have hpiece : '\n' ∉ piece := clean piece List.mem_cons_self
    cases n with
    | zero =>
      cases h
      cases pieces with
      | nil =>
        refine ⟨[], [], ?_, rfl, rfl, rfl, hpiece, by simp⟩
        rw [List.intercalate_singleton, List.nil_append, List.append_nil]
        rfl
      | cons second pieces =>
        refine ⟨[], '\n' :: ['\n'].intercalate (second :: pieces), ?_, rfl, rfl, rfl, hpiece,
          by simp⟩
        rw [List.intercalate_cons_cons, List.append_assoc]
        rfl
    | succ n =>
      obtain ⟨before, after, hsplit, hstart, hcount, hfirst, hwhole, hstop⟩ :=
        ih (fun p hp => clean p (List.mem_cons_of_mem _ hp)) h
      cases pieces with
      | nil => cases h
      | cons second pieces =>
        refine ⟨piece ++ '\n' :: before, after, ?_, ?_, ?_, ?_, hwhole, hstop⟩
        · rw [List.intercalate_cons_cons, hsplit]
          simp only [List.append_assoc, List.cons_append, List.nil_append]
        · rw [hstart, Text.byteLength_append, Text.byteLength_cons]
          change _ = start + (Text.byteLength piece + (1 + Text.byteLength before))
          omega
        · rw [List.count_append, List.count_eq_zero.mpr hpiece, List.count_cons_self, hcount,
            Nat.zero_add]
        · rw [Text.column_append_lineFeed, hfirst]

theorem countWithin_le_length (cs : List Char) (n : Nat) : countWithin cs n ≤ cs.length := by
  induction cs generalizing n with
  | nil => exact Nat.zero_le 0
  | cons c cs ih =>
    rw [countWithin]
    split
    · exact Nat.succ_le_succ (ih _)
    · exact Nat.zero_le _

end Line

namespace Text

theorem length_splitOn (cs : List Char) : (cs.splitOn '\n').length = cs.count '\n' + 1 := by
  induction cs with
  | nil => rfl
  | cons c cs ih =>
    rw [List.splitOn_cons_eq_if_modifyHead]
    by_cases h : c = '\n'
    · rw [if_pos (beq_iff_eq.mpr h), List.length_cons, ih, h, List.count_cons_self]
    · rw [if_neg (mt beq_iff_eq.mp h), List.length_modifyHead, ih, List.count_cons_of_ne h]

/-- Where a line of a text stands. -/
theorem exists_of_splitOn {cs piece : List Char} {n : Nat} (h : (cs.splitOn '\n')[n]? = some piece) :
    ∃ pre post, cs = pre ++ piece ++ post ∧ pre.count '\n' = n ∧ column pre = 0 := by
  rw [← Line.chars_place 0 (cs.splitOn '\n'), List.getElem?_map] at h
  obtain ⟨line, hline, rfl⟩ := Option.map_eq_some_iff.mp h
  obtain ⟨pre, post, hsplit, -, hcount, hfirst, -⟩ :=
    Line.exists_of_place (fun _ => Text.not_mem_of_mem_splitOn) hline
  rw [List.intercalate_splitOn] at hsplit
  exact ⟨pre, post, hsplit, hcount, hfirst⟩

/-- The pieces of a text are made of its characters. -/
theorem mem_of_mem_splitOn {cs piece : List Char} (h : piece ∈ cs.splitOn '\n') {c : Char}
    (hc : c ∈ piece) : c ∈ cs := by
  obtain ⟨n, hn⟩ := List.mem_iff_getElem?.mp h
  obtain ⟨pre, post, rfl, -, -⟩ := exists_of_splitOn hn
  exact List.mem_append_left _ (List.mem_append_right _ hc)

/-- The characters of a line without a carriage return at their end. -/
def withoutReturn (cs : List Char) : List Char :=
  if cs.getLast? = some '\r' then cs.dropLast else cs

theorem getElem?_of_withoutReturn {cs : List Char} {k : Nat} {c : Char}
    (h : (withoutReturn cs)[k]? = some c) : cs[k]? = some c := by
  unfold withoutReturn at h
  split at h
  · rw [List.getElem?_dropLast] at h
    split at h
    · exact h
    · cases h
  · exact h

theorem mem_of_mem_withoutReturn {cs : List Char} {c : Char} (h : c ∈ withoutReturn cs) :
    c ∈ cs := by
  obtain ⟨k, hk⟩ := List.mem_iff_getElem?.mp h
  exact List.mem_of_getElem? (getElem?_of_withoutReturn hk)

/-- A character of a line is told by the line feeds before it and by its column. -/
theorem exists_of_splitOn_getElem? {cs piece : List Char} {n k : Nat} {c : Char}
    (h : (cs.splitOn '\n')[n]? = some piece) (hk : piece[k]? = some c) :
    ∃ before after, cs = before ++ c :: after ∧ before.count '\n' = n ∧ column before = k := by
  obtain ⟨pre, post, rfl, hcount, hcolumn⟩ := exists_of_splitOn h
  have clean : '\n' ∉ piece.take k := fun hmem =>
    Text.not_mem_of_mem_splitOn (List.mem_of_getElem? h) (List.mem_of_mem_take hmem)
  obtain ⟨hlt, rfl⟩ := List.getElem?_eq_some_iff.mp hk
  refine ⟨pre ++ piece.take k, piece.drop (k + 1) ++ post, ?_, ?_, ?_⟩
  · rw [List.append_assoc, List.append_assoc, ← List.cons_append, ← List.drop_eq_getElem_cons hlt,
      ← List.append_assoc (piece.take k), List.take_append_drop]
  · rw [List.count_append, List.count_eq_zero.mpr clean, hcount, Nat.add_zero]
  · rw [column_append_of_not_mem pre clean, hcolumn, List.length_take_of_le (Nat.le_of_lt hlt),
      Nat.zero_add]

end Text

namespace SourceFile

variable (file : SourceFile)

theorem chars_lines : file.lines.toList.map (·.chars) = file.content.toList.splitOn '\n' := by
  rw [file.lines_eq, Line.index, Line.chars_place]

theorem size_lines : file.lines.size = file.content.toList.count '\n' + 1 := by
  rw [← Text.length_splitOn, ← file.chars_lines, List.length_map, Array.length_toList]

/-- The lines of a file are shown without the carriage return that may end them. -/
theorem lineTexts_eq (first last : UInt32) : file.lineTexts first last =
    (((file.content.toList.splitOn '\n').drop first.toNat).take
      (last.toNat + 1 - first.toNat)).map fun piece => String.ofList (Text.withoutReturn piece) := by
  rw [← file.chars_lines, lineTexts, Array.toList_extract, ← List.map_drop, ← List.map_take,
    List.map_map]
  rfl

/-- The lines of a file as they are shown, each with its number. -/
def numbered (file : SourceFile) : List (String × Nat) :=
  ((file.content.toList.splitOn '\n').map fun piece =>
    String.ofList (Text.withoutReturn piece)).zipIdx

/-- The lines of a file are made of its characters. -/
theorem mem_of_mem_numbered {file : SourceFile} {line : String} {n : Nat}
    (h : (line, n) ∈ file.numbered) {c : Char} (hc : c ∈ line.toList) :
    c ∈ file.content.toList := by
  obtain ⟨piece, hpiece, rfl⟩ := List.mem_map.mp (List.fst_mem_of_mem_zipIdx h)
  rw [String.toList_ofList] at hc
  exact Text.mem_of_mem_splitOn hpiece (Text.mem_of_mem_withoutReturn hc)

theorem length_lineTexts (first : UInt32) {last : UInt32}
    (h : last.toNat ≤ file.content.toList.count '\n') :
    (file.lineTexts first last).length = last.toNat + 1 - first.toNat := by
  rw [file.lineTexts_eq, List.length_map, List.length_take, List.length_drop, Text.length_splitOn]
  omega

/-- A character that is shown is one of the file, on its line and in its column. -/
theorem exists_of_lineTexts_getElem? {first last : UInt32} {n k : Nat} {line : String} {c : Char}
    (h : (file.lineTexts first last)[n]? = some line) (hk : line.toList[k]? = some c) :
    first.toNat + n ≤ last.toNat ∧ ∃ before after, file.content.toList = before ++ c :: after ∧
      before.count '\n' = first.toNat + n ∧ Text.column before = k := by
  rw [file.lineTexts_eq, List.getElem?_map] at h
  obtain ⟨piece, hpiece, rfl⟩ := Option.map_eq_some_iff.mp h
  rw [List.getElem?_take] at hpiece
  split at hpiece
  · next hn =>
    rw [List.getElem?_drop] at hpiece
    rw [String.toList_ofList] at hk
    refine ⟨by omega, ?_⟩
    exact Text.exists_of_splitOn_getElem? hpiece (Text.getElem?_of_withoutReturn hk)
  · cases hpiece

theorem lines_toList :
    file.lines.toList = Line.place 0 (file.content.toList.splitOn '\n') := by
  rw [file.lines_eq, Line.index]

/-- Where the line of a number stands. -/
theorem exists_between {n : Nat} {line : Line} (h : file.lines[n]? = some line) :
    ∃ before after, line.Between file.content.toList before after ∧ before.count '\n' = n := by
  rw [← Array.getElem?_toList, file.lines_toList] at h
  obtain ⟨before, after, hsplit, hstart, hcount, hfirst, hwhole, hstop⟩ :=
    Line.exists_of_place (fun _ => Text.not_mem_of_mem_splitOn) h
  rw [List.intercalate_splitOn] at hsplit
  rw [Nat.zero_add] at hstart
  exact ⟨before, after, ⟨hsplit, hstart, hfirst, hwhole, hstop⟩, hcount⟩

/-- The lines up to the border are those that start by byte `n`. -/
theorem start_le_iff_lt_border (n : Nat) {i : Nat} (hi : i < file.lines.size) :
    file.lines[i].start ≤ n ↔ i < border (·.start ≤ n) file.lines := by
  have hsorted : file.lines.toList.Pairwise (·.start < ·.start) := by
    rw [file.lines_toList]
    exact Line.pairwise_place _ _
  have mono : ∀ (i j : Nat) (hi : i < file.lines.size) (hj : j < file.lines.size), i ≤ j →
      decide (file.lines[j].start ≤ n) = true → decide (file.lines[i].start ≤ n) = true := by
    intro i j hi hj hle hp
    rcases Nat.lt_or_eq_of_le hle with hlt | rfl
    · have hstart := List.pairwise_iff_getElem.mp hsorted i j hi hj hlt
      exact decide_eq_true (Nat.le_trans (Nat.le_of_lt hstart) (of_decide_eq_true hp))
    · exact hp
  obtain ⟨-, hiff⟩ := borderWithin_spec (p := fun line : Line => decide (line.start ≤ n)) mono 0
    file.lines.size (Nat.le_refl _) (Nat.zero_le _) (fun i _ h => absurd h (Nat.not_lt_zero i))
    (fun i hi h => absurd hi (Nat.not_lt.mpr h))
  rw [border, ← hiff i hi, decide_eq_true_eq]

/-- The line that a byte is looked up in exists, and it starts at a boundary that is not behind
the byte. -/
theorem exists_line (n : Nat) : 0 < border (·.start ≤ n) file.lines ∧
    ∃ line, file.lines[border (·.start ≤ n) file.lines - 1]? = some line ∧ line.start ≤ n ∧
      Text.IsBoundary file.content.toList line.start := by
  have hfirst : 0 < border (·.start ≤ n) file.lines := by
    obtain ⟨piece, pieces, hpieces⟩ :=
      List.exists_cons_of_ne_nil (List.splitOn_ne_nil '\n' file.content.toList)
    have hline : file.lines[0]? = some (Line.ofChars 0 piece) := by
      rw [← Array.getElem?_toList, file.lines_toList, hpieces]
      rfl
    obtain ⟨hpos, hline⟩ := Array.getElem?_eq_some_iff.mp hline
    apply (file.start_le_iff_lt_border n hpos).mp
    rw [hline]
    exact Nat.zero_le n
  have hlt : border (·.start ≤ n) file.lines - 1 < file.lines.size := by
    have hle := List.countP_le_length (p := fun line : Line => decide (line.start ≤ n))
      (l := file.lines.toList)
    rw [← file.border_lines, Array.length_toList] at hle
    omega
  refine ⟨hfirst, _, Array.getElem?_eq_getElem hlt, ?_, ?_⟩
  · exact (file.start_le_iff_lt_border n hlt).mpr (Nat.sub_lt hfirst Nat.one_pos)
  · obtain ⟨before, after, hstands, -⟩ := file.exists_between (Array.getElem?_eq_getElem hlt)
    exact hstands.isBoundary

/-- Whatever byte it is asked for, a file answers with one of its lines and with a column
that is not past the end of the text. -/
theorem positionAt_le (k : Nat) : (file.positionAt k).line.toNat ≤ file.content.toList.count '\n' ∧
    (file.positionAt k).column.toNat ≤ file.content.toList.length := by
  unfold positionAt
  cases hline : file.lines[border (·.start ≤ k) file.lines - 1]? with
  | none =>
    simp only [hline]
    exact ⟨Nat.zero_le _, Nat.zero_le _⟩
  | some line =>
    simp only [hline]
    obtain ⟨hlt, -⟩ := Array.getElem?_eq_some_iff.mp hline
    rw [file.size_lines] at hlt
    have hpiece : (file.content.toList.splitOn '\n')[
        border (·.start ≤ k) file.lines - 1]? = some line.chars := by
      rw [← file.chars_lines, List.getElem?_map, Array.getElem?_toList, hline]
      rfl
    obtain ⟨pre, post, hcontent, -, -⟩ := Text.exists_of_splitOn hpiece
    have hcolumn : line.columnAt (k - line.start) ≤ file.content.toList.length := by
      have hle := Line.countWithin_le_length line.chars (k - line.start)
      rw [Line.columnAt_eq_countWithin, hcontent, List.length_append, List.length_append]
      omega
    constructor
    · exact Nat.le_trans (Nat.mod_le _ _) (Nat.le_of_lt_succ hlt)
    · exact Nat.le_trans (Nat.mod_le _ _) hcolumn

end SourceFile

end PageLint
