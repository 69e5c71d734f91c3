import PageLint.Source.Path
import PageLint.Source.Position
/-!
# Source ranges

A range of a file runs from its start up to, but not including, its stop.
-/

namespace PageLint

/-- A part of a file. -/
structure SourceRange where
  file : Path
  start : Position
  stop : Position
deriving DecidableEq, Inhabited

namespace SourceRange

instance : ToString SourceRange := ⟨fun r => s!"{r.file}({r.start})"⟩

/-- Whether the range starts and stops on one line. -/
def isSingleLine (r : SourceRange) : Bool := r.start.line = r.stop.line

/-- Whether the range holds no character. -/
def isEmpty (r : SourceRange) : Bool := r.start = r.stop

/-- Whether a position lies in the range. -/
def Contains (r : SourceRange) (p : Position) : Prop := r.start ≤ p ∧ p < r.stop

instance (r : SourceRange) (p : Position) : Decidable (r.Contains p) :=
  inferInstanceAs (Decidable (_ ∧ _))

/-- The number of lines the range touches; one if it stops above its start. -/
def lineCount (r : SourceRange) : Except Fault UInt32 :=
  checkedAdd (UInt32.ofNat (r.stop.line.toNat - r.start.line.toNat)) 1

/-- The range moved to where the embedded text around it is. -/
def offsetBy (r : SourceRange) (offset : Offset) : Except Fault SourceRange := do
  let start ← r.start.offsetBy offset
  let stop ← r.stop.offsetBy offset
  pure { r with start, stop }

/-- Whether two ranges cover the same part of the same file. -/
def Same (r s : SourceRange) : Prop :=
  r.file.Same s.file ∧ r.start = s.start ∧ r.stop = s.stop

instance (r s : SourceRange) : Decidable (r.Same s) :=
  inferInstanceAs (Decidable (_ ∧ _ ∧ _))

end SourceRange

end PageLint
