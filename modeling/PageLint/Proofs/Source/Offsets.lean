import PageLint.Proofs.Source.Lines

/-!
# From positions back to bytes

A position counts the characters of its line, a carriage return at the end of the line
included; the byte at a position is looked for on the line as it is shown, without that carriage
return. So the byte is found again for every boundary of the text but those behind a carriage
return that ends a line, and what is found is never another byte.
-/

namespace PageLint

namespace Text

/-- Byte `k` of `cs` stands behind a carriage return, and a line feed or nothing follows. -/
def BehindReturn (cs : List Char) (k : Nat) : Prop :=
  ∃ pre post, cs = pre ++ '\r' :: post ∧ byteLength pre + 1 = k ∧ ∀ c ∈ post.head?, c = '\n'

theorem byteLength_concat_return (cs : List Char) :
    byteLength (cs ++ ['\r']) = byteLength cs + 1 := by
  rw [byteLength_append]
  rfl

/-- At the end of what stands before `post`, being behind a carriage return that ends a line is
a matter of the last character before and of the first one after. -/
theorem behindReturn_iff {cs pre post : List Char} (h : cs = pre ++ post) :
    BehindReturn cs (byteLength pre) ↔ pre.getLast? = some '\r' ∧ ∀ c ∈ post.head?, c = '\n' := by
  constructor
  · rintro ⟨before, after, hcs, hbytes, hafter⟩
    rw [← byteLength_concat_return] at hbytes
    rw [h, ← List.singleton_append, ← List.append_assoc] at hcs
    obtain ⟨rfl, rfl⟩ := append_inj_of_byteLength hcs hbytes.symm
    exact ⟨List.getLast?_concat, hafter⟩
  · rintro ⟨hlast, hpost⟩
    obtain ⟨before, rfl⟩ := List.getLast?_eq_some_iff.mp hlast
    refine ⟨before, post, ?_, (byteLength_concat_return before).symm, hpost⟩
    rw [h, List.append_assoc, List.singleton_append]

end Text

namespace Line

/-- What is shown of a line is all of it, or all but a carriage return at its end. -/
theorem chars_eq_shown (line : Line) :
    line.chars = line.shown ∨ line.chars = line.shown ++ ['\r'] := by
  unfold shown
  split
  · next hlast =>
    obtain ⟨cs, hcs⟩ := List.getLast?_eq_some_iff.mp hlast
    right
    rw [hcs, List.dropLast_concat]
  · exact Or.inl rfl

theorem take_shown (line : Line) {k : Nat} (h : k ≤ line.shown.length) :
    line.shown.take k = line.chars.take k := by
  rcases line.chars_eq_shown with heq | heq
  · rw [heq]
  · rw [heq, List.take_append_of_le_length h]

/-- The characters of a line up to a place in it are shown, unless they are all of the line and
the last of them is a carriage return. -/
theorem length_le_length_shown_iff {line : Line} {cs rest : List Char}
    (h : line.chars = cs ++ rest) :
    cs.length ≤ line.shown.length ↔ ¬ (rest = [] ∧ cs.getLast? = some '\r') := by
  unfold shown
  rw [h]
  split
  · next hlast =>
    rw [List.length_dropLast, List.length_append]
    cases rest with
    | nil =>
      rw [List.append_nil] at hlast
      have hne : cs ≠ [] := by
        rintro rfl
        cases hlast
      have := List.length_pos_iff.mpr hne
      simp only [List.length_nil, hlast, and_self, not_true_eq_false, iff_false]
      omega
    | cons c rest => simp
  · next hlast =>
    rw [List.length_append]
    refine iff_of_true (Nat.le_add_right _ _) ?_
    rintro ⟨rfl, hcs⟩
    rw [List.append_nil] at hlast
    exact hlast hcs

/-- A place behind as many line feeds as the line is a place in the line. -/
theorem Between.exists_split {line : Line} {cs before after pre post : List Char}
    (h : line.Between cs before after) (hpre : cs = pre ++ post)
    (hcount : before.count '\n' = pre.count '\n') :
    ∃ part rest, pre = before ++ part ∧ line.chars = part ++ rest ∧ post = rest ++ after := by
  have hsplit : before ++ (line.chars ++ after) = pre ++ post := by
    rw [← List.append_assoc, ← h.split, hpre]
  rcases List.append_eq_append_iff.mp hsplit with ⟨part, hpart, hmore⟩ | ⟨more, hmore, hpost⟩
  · -- the place is behind the start of the line, and no line feed lies between the two
    have hclean : '\n' ∉ part := by
      rw [hpart, List.count_append] at hcount
      exact List.count_eq_zero.mp (by omega)
    rcases List.append_eq_append_iff.mp hmore with ⟨more, hmore, hafter⟩ | ⟨rest, hrest, hpost⟩
    · cases more with
      | nil => exact ⟨part, [], hpart, by simpa using hmore.symm, by simpa using hafter.symm⟩
      | cons c more =>
        have hc : c = '\n' := h.stop c (by rw [hafter]; rfl)
        refine absurd ?_ hclean
        rw [hmore, hc]
        exact List.mem_append_right _ List.mem_cons_self
    · exact ⟨part, rest, hpart, hrest, hpost⟩
  · -- a line that starts further on would start within the line of the place
    have hclean : '\n' ∉ more := by
      rw [hmore, List.count_append] at hcount
      exact List.count_eq_zero.mp (by omega)
    have hfirst := h.first
    rw [hmore, Text.column_append_of_not_mem pre hclean] at hfirst
    obtain rfl := List.eq_nil_of_length_eq_zero (Nat.eq_zero_of_add_eq_zero_left hfirst)
    rw [List.append_nil] at hmore
    exact ⟨[], line.chars, by rw [hmore, List.append_nil], rfl, hpost⟩

/-- A place in the line is behind a carriage return that ends a line exactly if it is at the end
of the line, behind a carriage return of the line. -/
theorem Between.behindReturn_iff {line : Line} {cs before after part rest : List Char}
    (h : line.Between cs before after) (hchars : line.chars = part ++ rest) :
    Text.BehindReturn cs (Text.byteLength (before ++ part)) ↔
      rest = [] ∧ part.getLast? = some '\r' := by
  have hsplit : cs = (before ++ part) ++ (rest ++ after) := by
    rw [h.split, hchars]
    simp only [List.append_assoc]
  have hbefore : before.getLast? ≠ some '\r' := by
    intro hlast
    obtain ⟨more, hmore⟩ := List.getLast?_eq_some_iff.mp hlast
    have hfirst := h.first
    rw [hmore, Text.column_append_of_not_mem more (by decide)] at hfirst
    exact absurd hfirst (Nat.succ_ne_zero _)
  rw [Text.behindReturn_iff hsplit, List.getLast?_append]
  constructor
  · rintro ⟨hlast, hnext⟩
    have hrest : rest = [] := by
      cases rest with
      | nil => rfl
      | cons c rest =>
        have hc : c = '\n' := hnext c rfl
        refine absurd ?_ h.whole
        rw [hchars, hc]
        exact List.mem_append_right _ List.mem_cons_self
    refine ⟨hrest, ?_⟩
    rcases Option.or_eq_some_iff.mp hlast with hpart | ⟨-, hpart⟩
    · exact hpart
    · exact absurd hpart hbefore
  · rintro ⟨rfl, hpart⟩
    rw [hpart]
    exact ⟨rfl, h.stop⟩

end Line

namespace SourceFile

variable {file : SourceFile}

/-- The byte that a position is found to be at is a boundary, and it is at that position. -/
theorem positionAt_of_offsetOf? {p : Position} {k : Nat} (h : file.offsetOf? p = some k) :
    Text.IsBoundary file.content.toList k ∧ file.positionAt k = p := by
  obtain ⟨line, hline, h⟩ := Option.bind_eq_some_iff.mp h
  obtain ⟨before, after, hstands, hcount⟩ := file.exists_between hline
  split at h
  · next hcolumn =>
    obtain rfl := Option.some.inj h
    rw [line.take_shown hcolumn]
    -- the text up to the place: what is before the line, and so many characters of the line
    have hlength : p.column.toNat ≤ line.chars.length := by
      rcases line.chars_eq_shown with heq | heq
      · rw [heq]
        exact hcolumn
      · rw [heq, List.length_append]
        exact Nat.le_add_right_of_le hcolumn
    have hsplit : file.content.toList = (before ++ line.chars.take p.column.toNat) ++
        (line.chars.drop p.column.toNat ++ after) := by
      rw [List.append_assoc, ← List.append_assoc (List.take _ _), List.take_append_drop,
        ← List.append_assoc]
      exact hstands.split
    have hbytes : line.start + Text.byteLength (line.chars.take p.column.toNat) =
        Text.byteLength (before ++ line.chars.take p.column.toNat) := by
      rw [hstands.start, Text.byteLength_append]
    have hclean : '\n' ∉ line.chars.take p.column.toNat :=
      fun hmem => hstands.whole (List.mem_of_mem_take hmem)
    rw [hbytes]
    refine ⟨⟨_, _, hsplit, rfl⟩, ?_⟩
    rw [file.positionAt_of_append hsplit, Position.after, List.count_append,
      List.count_eq_zero.mpr hclean, hcount, Text.column_append_of_not_mem before hclean,
      hstands.first, List.length_take_of_le hlength, Nat.add_zero, Nat.zero_add,
      UInt32.ofNat_toNat, UInt32.ofNat_toNat]
  · cases h

/-- The byte at the position of a boundary is found, unless the boundary is behind a carriage
return that ends a line. -/
theorem offsetOf?_after {pre post : List Char} (h : file.content.toList = pre ++ post)
    (short : Text.byteLength pre < UInt32.size) :
    (Text.BehindReturn file.content.toList (Text.byteLength pre) →
      file.offsetOf? (Position.after pre) = none) ∧
    (¬ Text.BehindReturn file.content.toList (Text.byteLength pre) →
      file.offsetOf? (Position.after pre) = some (Text.byteLength pre)) := by
  obtain ⟨line, hline⟩ : ∃ line, file.lines[pre.count '\n']? = some line := by
    have hlt : pre.count '\n' < file.lines.size := by
      rw [file.size_lines, h, List.count_append]
      omega
    exact ⟨_, Array.getElem?_eq_getElem hlt⟩
  obtain ⟨before, after, hstands, hcount⟩ := file.exists_between hline
  obtain ⟨part, rest, rfl, hchars, rfl⟩ := hstands.exists_split h hcount
  have hclean : '\n' ∉ part := by
    intro hmem
    apply hstands.whole
    rw [hchars]
    exact List.mem_append_left _ hmem
  have hcolumn : (Position.after (before ++ part)).column.toNat = part.length := by
    rw [Position.after_column_toNat short, Text.column_append_of_not_mem before hclean,
      hstands.first, Nat.zero_add]
  have hoffset : file.offsetOf? (Position.after (before ++ part)) =
      if part.length ≤ line.shown.length then
        some (line.start + Text.byteLength (line.shown.take part.length)) else none := by
    rw [offsetOf?, Position.after_line_toNat short, hline, Option.bind_some, hcolumn]
  have hshown : part.length ≤ line.shown.length ↔
      ¬ Text.BehindReturn file.content.toList (Text.byteLength (before ++ part)) := by
    rw [hstands.behindReturn_iff hchars, Line.length_le_length_shown_iff hchars]
  rw [hoffset]
  constructor
  · intro hreturn
    rw [if_neg fun hle => hshown.mp hle hreturn]
  · intro hinside
    have hle := hshown.mpr hinside
    rw [if_pos hle, line.take_shown hle, hchars, List.take_left, hstands.start,
      Text.byteLength_append]

/-- The byte of a position inverts the position of a byte. What is found for a position is a
boundary at that position, and what is found for the position of a boundary is the boundary
itself; nothing is found only if the boundary is behind a carriage return that ends a line. -/
theorem offset_partialInverse (file : SourceFile)
    (short : Text.byteLength file.content.toList < UInt32.size) :
    (∀ p k, file.offsetOf? p = some k →
      Text.IsBoundary file.content.toList k ∧ file.positionAt k = p) ∧
    ∀ k, Text.IsBoundary file.content.toList k →
      (Text.BehindReturn file.content.toList k → file.offsetOf? (file.positionAt k) = none) ∧
      (¬ Text.BehindReturn file.content.toList k →
        file.offsetOf? (file.positionAt k) = some k) := by
  refine ⟨fun p k => positionAt_of_offsetOf?, ?_⟩
  rintro k ⟨pre, post, hpre, rfl⟩
  have hbytes := congrArg Text.byteLength hpre
  rw [Text.byteLength_append] at hbytes
  rw [file.positionAt_of_append hpre]
  exact offsetOf?_after hpre (by omega)

/-- A file with a character of two bytes, with carriage returns and with one at its end. -/
def returnsFile : SourceFile := SourceFile.ofContent ⟨"a.html"⟩ "é\r\r\nx\r"

theorem offset_partialInverse_returnsFile :
    Text.byteLength returnsFile.content.toList < UInt32.size ∧
      returnsFile.offsetOf? ⟨0, 2⟩ = some 3 ∧ returnsFile.positionAt 3 = ⟨0, 2⟩ ∧
      Text.BehindReturn returnsFile.content.toList 4 ∧
      returnsFile.offsetOf? (returnsFile.positionAt 4) = none ∧
      ¬ Text.BehindReturn returnsFile.content.toList 3 ∧
      returnsFile.offsetOf? (returnsFile.positionAt 3) = some 3 := by
  have short : Text.byteLength returnsFile.content.toList < UInt32.size := by decide +kernel
  obtain ⟨hfound, hinverse⟩ := offset_partialInverse returnsFile short
  have hoffset : returnsFile.offsetOf? ⟨0, 2⟩ = some 3 := by decide +kernel
  have h3 : returnsFile.content.toList = ['é', '\r'] ++ ['\r', '\n', 'x', '\r'] := by
    decide +kernel
  have h4 : returnsFile.content.toList = ['é', '\r', '\r'] ++ ['\n', 'x', '\r'] := by
    decide +kernel
  have hreturn : Text.BehindReturn returnsFile.content.toList 4 :=
    (Text.behindReturn_iff h4).mpr ⟨rfl, by simp⟩
  have hinside : ¬ Text.BehindReturn returnsFile.content.toList 3 :=
    fun h => absurd (((Text.behindReturn_iff h3).mp h).2 '\r' rfl) (by decide)
  exact ⟨short, hoffset, (hfound _ _ hoffset).2, hreturn, (hinverse 4 ⟨_, _, h4, rfl⟩).1 hreturn,
    hinside, (hinverse 3 ⟨_, _, h3, rfl⟩).2 hinside⟩

end SourceFile

end PageLint
