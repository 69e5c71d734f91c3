import PageLint.Source.Border
import PageLint.Source.Path
import PageLint.Source.Position
import PageLint.Text.Basic
/-!
# Source files

A source file is a text together with an index of its lines, which turns byte
offsets into positions and back. A line ends before its line feed; a carriage
return at its end belongs to the terminator when the line is shown.

A line knows where its characters end, so a column is found by halving;
`Line.columnAt_eq_countWithin` says that it is what counting gives.
-/

namespace PageLint

/-- The byte offsets at which characters end, the first of which starts at `start`. -/
def charEnds (start : Nat) : List Char → List Nat
  | [] => []
  | c :: cs => (start + c.utf8Size) :: charEnds (start + c.utf8Size) cs

/-- A line of a text, without its line feed. -/
structure Line where
  /-- The byte offset of its first character. -/
  start : Nat
  chars : List Char
  /-- Where the characters end, counted in bytes from the first on. -/
  ends : Array Nat
  ends_eq : ends = (charEnds 0 chars).toArray

namespace Line

/-- The line of some characters at a byte offset. -/
def ofChars (start : Nat) (chars : List Char) : Line :=
  ⟨start, chars, (charEnds 0 chars).toArray, rfl⟩

/-- Puts consecutive pieces of a text, a line feed apart, at their offsets. -/
def place (start : Nat) : List (List Char) → List Line
  | [] => []
  | piece :: rest => ofChars start piece :: place (start + Text.byteLength piece + 1) rest

/-- The lines of a text, one more than it has line feeds. -/
def index (content : String) : Array Line :=
  (place 0 (content.toList.splitOn '\n')).toArray

/-- The characters of a line that are shown. -/
def shown (line : Line) : List Char :=
  if line.chars.getLast? = some '\r' then line.chars.dropLast else line.chars

/-- The text of a line as it is shown. -/
def text (line : Line) : String := String.ofList line.shown

/-- The number of characters that end within the first `n` bytes. -/
def columnAt (line : Line) (n : Nat) : Nat := border (· ≤ n) line.ends

/-- The number of characters of `cs` that end within its first `n` bytes. -/
def countWithin : List Char → Nat → Nat
  | [], _ => 0
  | c :: cs, n => if c.utf8Size ≤ n then countWithin cs (n - c.utf8Size) + 1 else 0

theorem lt_of_mem_charEnds {start e : Nat} {cs : List Char} (h : e ∈ charEnds start cs) :
    start < e := by
  induction cs generalizing start with
  | nil => cases h
  | cons c cs ih =>
    have hc := c.utf8Size_pos
    rcases List.mem_cons.mp h with rfl | h
    · omega
    · exact Nat.lt_trans (by omega) (ih h)

theorem pairwise_charEnds (start : Nat) (cs : List Char) :
    (charEnds start cs).Pairwise (· < ·) := by
  induction cs generalizing start with
  | nil => exact List.Pairwise.nil
  | cons c cs ih => exact List.Pairwise.cons (fun _ h => lt_of_mem_charEnds h) (ih _)

theorem countP_charEnds (start n : Nat) (cs : List Char) :
    (charEnds start cs).countP (· ≤ start + n) = countWithin cs n := by
  induction cs generalizing start n with
  | nil => rfl
  | cons c cs ih =>
    rw [charEnds, countWithin]
    split
    · next hc =>
      rw [List.countP_cons_of_pos (by simpa using hc), ← ih (start + c.utf8Size)]
      congr 2
      funext e
      congr 2
      omega
    · next hc =>
      rw [List.countP_cons_of_neg (by simpa using hc), List.countP_eq_zero]
      intro e he
      have := lt_of_mem_charEnds he
      simp only [decide_eq_true_eq]
      omega

theorem columnAt_eq_countWithin (line : Line) (n : Nat) :
    line.columnAt n = countWithin line.chars n := by
  rw [columnAt, border_eq_countP, line.ends_eq]
  · simpa using countP_charEnds 0 n line.chars
  · rw [line.ends_eq]
    refine (pairwise_charEnds 0 line.chars).imp ?_
    intro x y hxy hy
    simp only [decide_eq_true_eq] at hy ⊢
    omega

end Line

/-- A text with its line index. -/
structure SourceFile where
  path : Path
  content : String
  lines : Array Line
  lines_eq : lines = Line.index content

namespace SourceFile

def ofContent (path : Path) (content : String) : SourceFile :=
  ⟨path, content, Line.index content, rfl⟩

def lineCount (file : SourceFile) : UInt32 := UInt32.ofNat file.lines.size

/-- The position of the byte at `offset`. An offset past the end stands for the
end, and one inside a character for that character. -/
def positionAt (file : SourceFile) (offset : Nat) : Position :=
  let k := border (·.start ≤ offset) file.lines - 1
  match file.lines[k]? with
  | some line => ⟨UInt32.ofNat k, UInt32.ofNat (line.columnAt (offset - line.start))⟩
  | none => ⟨0, 0⟩

/-- The byte offset of a position, if it is one of a shown character or the end
of a shown line. -/
def offsetOf? (file : SourceFile) (p : Position) : Option Nat :=
  file.lines[p.line.toNat]?.bind fun line =>
    if p.column.toNat ≤ line.shown.length then
      some (line.start + Text.byteLength (line.shown.take p.column.toNat))
    else none

/-- The text of a line, without its terminator. -/
def lineText? (file : SourceFile) (number : UInt32) : Option String :=
  file.lines[number.toNat]?.map Line.text

/-- The texts of the lines that exist from `first` to `last`, both included. -/
def lineTexts (file : SourceFile) (first last : UInt32) : List String :=
  (file.lines.extract first.toNat (last.toNat + 1)).toList.map Line.text

end SourceFile

end PageLint
