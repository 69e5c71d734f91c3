import PageLint.Source.Range
/-!
# Underlines

The marks under a printed line that show which of its characters a range
covers. Before the first mark a tab stands under a tab and a space under
anything else, so that the marks line up. The first line of a range always gets
a mark, even if the range is empty.
-/

namespace PageLint

/-- What marks a character. -/
def mark : Char := '~'

/-- The characters before the first mark, for a line that is marked from `column`. -/
def indentation (line : List Char) (column : Nat) : List Char :=
  (line.take column).map fun c => if c = '\t' then '\t' else ' '

/-- The underline of line `number`, which reads `line`, for a range. -/
def underline (line : String) (number : UInt32) (range : SourceRange) : String :=
  let chars := line.toList
  if number = range.start.line then
    let first := range.start.column.toNat
    let last := if range.stop.line = range.start.line then range.stop.column.toNat else chars.length
    String.ofList (indentation chars first ++ List.replicate (max (last - first) 1) mark)
  else if number = range.stop.line then
    String.ofList (List.replicate range.stop.column.toNat mark)
  else String.ofList (List.replicate chars.length mark)

end PageLint
