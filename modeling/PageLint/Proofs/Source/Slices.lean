import PageLint.Proofs.Source.Lines
import PageLint.Proofs.Text.Bytes

/-!
# Lines as slices of bytes

A line starts behind a line feed and stops one byte before the next start, so it can be cut out of
the bytes of the text without looking at characters. What is cut out that way are the pieces
between the line feeds, and asking for one line after the other up to the first that is missing
gives those of an interval.
-/

namespace PageLint

/-- The answers to `n` and the numbers after it, `count` of them, up to the first that has none. -/
def answers {α : Type} (ask : Nat → Option α) (n : Nat) : Nat → List α
  | 0 => []
  | count + 1 =>
    match ask n with
    | none => []
    | some answer => answer :: answers ask (n + 1) count

theorem answers_getElem? {α : Type} (xs : List α) (n count : Nat) :
    answers (xs[·]?) n count = (xs.drop n).take count := by
  induction count generalizing n with
  | zero => rw [answers, List.take_zero]
  | succ count ih =>
    rw [answers]
    cases h : xs[n]? with
    | none => rw [List.drop_eq_nil_of_le (List.getElem?_eq_none_iff.mp h), List.take_nil]
    | some x =>
      obtain ⟨hlt, rfl⟩ := List.getElem?_eq_some_iff.mp h
      rw [List.drop_eq_getElem_cons hlt, List.take_succ_cons, ← ih]

namespace Text

/-- The offsets behind the line feeds of some bytes, the first of which is at `k`. -/
def startsBehind (k : Nat) : List UInt8 → List Nat
  | [] => []
  | byte :: rest =>
    if byte = 10 then (k + 1) :: startsBehind (k + 1) rest else startsBehind (k + 1) rest

/-- The offsets at which the lines of a text start. -/
def lineStarts (content : String) : List Nat := 0 :: startsBehind 0 (bytes content)

/-- Some bytes without a carriage return at their end. -/
def withoutReturnByte (bs : List UInt8) : List UInt8 :=
  if bs.getLast? = some 13 then bs.dropLast else bs

/-- The bytes of a text from the start of a line to the byte before the next start, or to the end
of the text if there is none. -/
def sliceLine? (content : String) (n : Nat) : Option (List UInt8) :=
  (lineStarts content)[n]?.map fun start =>
    let stop := (lineStarts content)[n + 1]?.elim (bytes content).length (· - 1)
    withoutReturnByte (((bytes content).take stop).drop start)

theorem startsBehind_append (k : Nat) (bs bs' : List UInt8) :
    startsBehind k (bs ++ bs') = startsBehind k bs ++ startsBehind (k + bs.length) bs' := by
  induction bs generalizing k with
  | nil => rfl
  | cons byte bs ih =>
    have hlength : k + (byte :: bs).length = k + 1 + bs.length := by
      rw [List.length_cons]
      omega
    rw [List.cons_append, startsBehind, startsBehind, ih, hlength]
    split <;> rfl

theorem startsBehind_of_not_mem {bs : List UInt8} (h : 10 ∉ bs) (k : Nat) :
    startsBehind k bs = [] := by
  induction bs generalizing k with
  | nil => rfl
  | cons byte bs ih =>
    have hbyte : byte ≠ 10 := by
      rintro rfl
      exact h List.mem_cons_self
    rw [startsBehind, if_neg hbyte]
    exact ih (fun hmem => h (List.mem_cons_of_mem _ hmem)) (k + 1)

theorem startsBehind_of_not_mem_chars {cs : List Char} (h : '\n' ∉ cs) (k : Nat) :
    startsBehind k (cs.flatMap String.utf8EncodeChar) = [] := by
  apply startsBehind_of_not_mem
  rw [← List.count_eq_zero, count_flatMap_utf8EncodeChar, List.count_eq_zero]
  exact h

theorem withoutReturnByte_flatMap (cs : List Char) :
    withoutReturnByte (cs.flatMap String.utf8EncodeChar) =
      (withoutReturn cs).flatMap String.utf8EncodeChar := by
  rcases List.eq_nil_or_concat cs with rfl | ⟨cs, c, rfl⟩
  · rfl
  · rw [List.concat_eq_append, withoutReturn, List.getLast?_concat, List.flatMap_append,
      List.flatMap_singleton, withoutReturnByte,
      List.getLast?_append_of_ne_nil _ String.utf8EncodeChar_ne_nil]
    by_cases h : c = '\r'
    · have hlast : (String.utf8EncodeChar c).getLast? = some 13 := by
        rw [h]
        rfl
      rw [if_pos hlast, if_pos (congrArg some h), List.dropLast_concat, h]
      exact List.dropLast_concat
    · have hlast : (String.utf8EncodeChar c).getLast? ≠ some 13 := fun hlast =>
        h (eq_of_mem_utf8EncodeChar (List.mem_of_getLast? hlast) (by decide) rfl)
      rw [if_neg hlast, if_neg (by simpa using h), List.flatMap_append, List.flatMap_singleton]

end Text

namespace Line

/-- Pieces that are placed a line feed apart start behind the line feeds of their bytes. -/
theorem starts_place {pieces : List (List Char)} (hne : pieces ≠ [])
    (clean : ∀ piece ∈ pieces, '\n' ∉ piece) (k : Nat) :
    (place k pieces).map (·.start) = k :: Text.startsBehind k
      ((['\n'].intercalate pieces).flatMap String.utf8EncodeChar) := by
  induction pieces generalizing k with
  | nil => exact absurd rfl hne
  | cons piece pieces ih =>
    have hpiece : '\n' ∉ piece := clean piece List.mem_cons_self
    cases pieces with
    | nil =>
      rw [List.intercalate_singleton, Text.startsBehind_of_not_mem_chars hpiece]
      rfl
    | cons second pieces =>
      have hrest := ih (List.cons_ne_nil _ _) (fun p hp => clean p (List.mem_cons_of_mem _ hp))
        (k + Text.byteLength piece + 1)
      rw [List.intercalate_cons_cons, List.append_assoc, List.flatMap_append, List.flatMap_append,
        Text.startsBehind_append, Text.startsBehind_of_not_mem_chars hpiece,
        Text.length_flatMap_utf8EncodeChar, place, List.map_cons, hrest]
      rfl

/-- A placed piece stops one byte before the next one starts, and the last one at the end. -/
theorem stop_place {pieces : List (List Char)} {k n : Nat} {line : Line}
    (h : (place k pieces)[n]? = some line) :
    ((place k pieces)[n + 1]?.map (·.start)).elim
        (k + Text.byteLength (['\n'].intercalate pieces)) (· - 1) =
      line.start + Text.byteLength line.chars := by
  induction pieces generalizing k n with
  | nil => cases h
  | cons piece pieces ih =>
    cases pieces with
    | nil =>
      cases n with
      | zero =>
        cases h
        rw [List.intercalate_singleton]
        rfl
      | succ n => cases h
    | cons second pieces =>
      cases n with
      | zero =>
        cases h
        rfl
      | succ n =>
        have hlength : k + Text.byteLength (['\n'].intercalate (piece :: second :: pieces)) =
            k + Text.byteLength piece + 1 +
              Text.byteLength (['\n'].intercalate (second :: pieces)) := by
          rw [List.intercalate_cons_cons, Text.byteLength_append, Text.byteLength_append]
          change k + (Text.byteLength piece + 1 + _) = _
          omega
        rw [hlength]
        exact ih h

end Line

namespace SourceFile

variable (file : SourceFile)

theorem getElem?_lineStarts (n : Nat) :
    (Text.lineStarts file.content)[n]? = file.lines[n]?.map (·.start) := by
  have hstarts := Line.starts_place (List.splitOn_ne_nil '\n' file.content.toList)
    (fun _ => Text.not_mem_of_mem_splitOn) 0
  rw [← file.lines_toList, List.intercalate_splitOn, ← Text.bytes_eq] at hstarts
  rw [Text.lineStarts, ← hstarts, List.getElem?_map, Array.getElem?_toList]

/-- The slice from the start of a line to its stop is the line. -/
theorem slice_line {n : Nat} {line : Line} (h : file.lines[n]? = some line) :
    ((Text.bytes file.content).take (line.start + Text.byteLength line.chars)).drop line.start =
      line.chars.flatMap String.utf8EncodeChar := by
  obtain ⟨before, after, hstands, -⟩ := file.exists_between h
  rw [hstands.start, ← Text.byteLength_append, Text.take_bytes hstands.split, List.flatMap_append,
    ← Text.length_flatMap_utf8EncodeChar, List.drop_left]

theorem stop_line {n : Nat} {line : Line} (h : file.lines[n]? = some line) :
    (Text.lineStarts file.content)[n + 1]?.elim (Text.bytes file.content).length (· - 1) =
      line.start + Text.byteLength line.chars := by
  rw [← Array.getElem?_toList, file.lines_toList] at h
  rw [← Line.stop_place h, ← file.lines_toList, List.intercalate_splitOn, Nat.zero_add,
    file.getElem?_lineStarts, Text.bytes_eq, Text.length_flatMap_utf8EncodeChar,
    Array.getElem?_toList]

theorem bytes_text (n : Nat) : (file.lines[n]?.map fun line => Text.bytes line.text) =
    Text.sliceLine? file.content n := by
  rw [Text.sliceLine?, file.getElem?_lineStarts n]
  cases h : file.lines[n]? with
  | none => rfl
  | some line =>
    simp only [Option.map_some, file.stop_line h, file.slice_line h,
      Text.withoutReturnByte_flatMap]
    rw [Text.bytes_eq, Line.text, String.toList_ofList]
    rfl

theorem bytes_lineTexts (first last : UInt32) : (file.lineTexts first last).map Text.bytes =
    answers (Text.sliceLine? file.content) first.toNat (last.toNat + 1 - first.toNat) := by
  have hask : Text.sliceLine? file.content =
      ((file.lines.toList.map fun line => Text.bytes line.text)[·]?) := by
    funext n
    rw [← file.bytes_text, List.getElem?_map, Array.getElem?_toList]
  rw [hask, answers_getElem?, lineTexts, Array.toList_extract, List.map_map, ← List.map_drop,
    ← List.map_take]
  rfl

theorem lineTexts_eq_filter_numbered (first last : UInt32) : file.lineTexts first last =
    (file.numbered.filter fun (_, n) => first.toNat ≤ n ∧ n ≤ last.toNat).map (·.1) := by
  rw [numbered, filter_zipIdx_between, Nat.sub_zero, Nat.max_eq_left (Nat.zero_le _),
    List.zipIdx_map_fst, file.lineTexts_eq, List.map_take, List.map_drop]

theorem lineCount_toNat (h : file.numbered.length < UInt32.size) :
    file.lineCount.toNat = file.numbered.length := by
  have hsize : file.lines.size = file.numbered.length := by
    rw [file.size_lines, numbered, List.length_zipIdx, List.length_map, Text.length_splitOn]
  rw [lineCount, hsize]
  exact UInt32.toNat_ofNat_of_lt' h

theorem not_mem_of_mem_lineTexts {first last : UInt32} {line : String}
    (h : line ∈ file.lineTexts first last) : '\n' ∉ line.toList := by
  rw [file.lineTexts_eq] at h
  obtain ⟨piece, hpiece, rfl⟩ := List.mem_map.mp h
  rw [String.toList_ofList]
  have hsplit := List.mem_of_mem_drop (List.mem_of_mem_take hpiece)
  exact fun hmem => Text.not_mem_of_mem_splitOn hsplit (Text.mem_of_mem_withoutReturn hmem)

theorem intercalate_numbered (h : '\r' ∉ file.content.toList) :
    "\n".intercalate (file.numbered.map (·.1)) = file.content := by
  have hpiece : ∀ piece ∈ file.content.toList.splitOn '\n', Text.withoutReturn piece = piece := by
    intro piece hmem
    have hlast : piece.getLast? ≠ some '\r' := fun hlast =>
      h (Text.mem_of_mem_splitOn hmem (List.mem_of_getLast? hlast))
    rw [Text.withoutReturn, if_neg hlast]
  have hpieces : (file.numbered.map (·.1)).map String.toList =
      file.content.toList.splitOn '\n' := by
    rw [numbered, List.zipIdx_map_fst, List.map_map]
    refine Eq.trans (List.map_congr_left fun piece hmem => ?_) (List.map_id _)
    rw [Function.comp_apply, String.toList_ofList, hpiece piece hmem]
    rfl
  apply String.toList_injective
  rw [String.toList_intercalate, hpieces]
  exact List.intercalate_splitOn '\n'

/-- The lines of an interval are cut out of the bytes of the text one after the other, and they are
the pieces between its line feeds that the interval counts. -/
theorem lineTexts_splitOn (first last : UInt32) :
    (file.lineTexts first last).map Text.bytes =
      answers (Text.sliceLine? file.content) first.toNat (last.toNat + 1 - first.toNat) ∧
    file.lineTexts first last =
      (file.numbered.filter fun (_, n) => first.toNat ≤ n ∧ n ≤ last.toNat).map (·.1) ∧
    (file.numbered.length < UInt32.size → file.lineCount.toNat = file.numbered.length) ∧
    (∀ line ∈ file.lineTexts first last, '\n' ∉ line.toList) ∧
    ('\r' ∉ file.content.toList → "\n".intercalate (file.numbered.map (·.1)) = file.content) :=
  ⟨file.bytes_lineTexts first last, file.lineTexts_eq_filter_numbered first last,
    file.lineCount_toNat, fun _ => file.not_mem_of_mem_lineTexts, file.intercalate_numbered⟩

theorem lineTexts_splitOn_plain_and_returns :
    let plain := ofContent ⟨"plain.html"⟩ "a\n\nb\n"
    let returns := ofContent ⟨"returns.html"⟩ "one\r\n\r\r\ntwo\r"
    plain.lineTexts 2 1 = [] ∧ plain.lineCount.toNat = 4 ∧
      "\n".intercalate (plain.numbered.map (·.1)) = "a\n\nb\n" ∧
      returns.lineTexts 1 0xffffffff = ["\r", "two"] ∧
      (returns.lineTexts 1 0xffffffff).map Text.bytes = [[13], [116, 119, 111]] := by
  intro plain returns
  obtain ⟨-, hnone, hcount, -, hjoin⟩ := lineTexts_splitOn plain 2 1
  obtain ⟨hslices, hlines, -, -, -⟩ := lineTexts_splitOn returns 1 0xffffffff
  refine ⟨hnone.trans ?_, (hcount ?_).trans ?_, hjoin ?_, hlines.trans ?_, hslices.trans ?_⟩
  all_goals decide +kernel

end SourceFile

end PageLint
