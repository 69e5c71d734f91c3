import PageLint.Fault
/-!
# Positions

A position is a line and a column, both counted from zero, columns in
characters. Positions are ordered as places in a text: by line, then by column.
An offset moves the positions of an embedded text to where they are in the
file around it: every line moves down, and the first line moves right as well.
-/

namespace PageLint

/-- A place in a text. -/
structure Position where
  line : UInt32
  column : UInt32
deriving DecidableEq, Inhabited

/-- Where an embedded text starts in the file around it. -/
structure Offset where
  line : UInt32
  column : UInt32
deriving DecidableEq, Inhabited

namespace Position

instance : LT Position where
  lt p q := p.line < q.line ∨ p.line = q.line ∧ p.column < q.column

instance : LE Position where
  le p q := p.line < q.line ∨ p.line = q.line ∧ p.column ≤ q.column

instance (p q : Position) : Decidable (p < q) :=
  inferInstanceAs (Decidable (_ ∨ _))

instance (p q : Position) : Decidable (p ≤ q) :=
  inferInstanceAs (Decidable (_ ∨ _))

instance : Ord Position := ⟨fun p q => compareOfLessAndEq p q⟩

instance : ToString Position := ⟨fun p => s!"{p.line.toNat},{p.column.toNat}"⟩

/-- The position in the outer file of what is at `p` in the embedded text. -/
def offsetBy (p : Position) (offset : Offset) : Except Fault Position := do
  let column ← if p.line = 0 then checkedAdd p.column offset.column else pure p.column
  let line ← checkedAdd p.line offset.line
  pure ⟨line, column⟩

/-- The offset of a text that starts at `p`. -/
def toOffset (p : Position) : Offset := ⟨p.line, p.column⟩

theorem lt_iff {p q : Position} :
    p < q ↔ p.line < q.line ∨ p.line = q.line ∧ p.column < q.column := Iff.rfl

theorem le_iff {p q : Position} :
    p ≤ q ↔ p.line < q.line ∨ p.line = q.line ∧ p.column ≤ q.column := Iff.rfl

end Position

end PageLint
