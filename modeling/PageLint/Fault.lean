import PageLint.Id
/-!
# Faults

What can stop an analysis: a coordinate that no longer fits its 32 bits, a
feature that points outside its document, an id that names nothing. Findings
about a page are never faults; they are warnings.
-/

namespace PageLint

/-- What was asked of a document that is not in the table. -/
inductive Request where
  | addInline
  | replace
  | reanalyze
deriving DecidableEq

/-- Why an operation could not be carried out. -/
inductive Fault where
  /-- A line, a column or a count of lines left the range of 32 bits. -/
  | coordinateOverflow
  /-- A scanned feature has a range in another file than the document's. -/
  | foreignRange
  /-- An item was demanded of a store that does not hold it. -/
  | outOfBounds (size index : Nat)
  /-- A request named a document that is not in the table. -/
  | noSuchDocument (request : Request) (id : DocumentId)
  /-- Inline documents were nested more deeply than the analyzer follows them. -/
  | nestingTooDeep
deriving DecidableEq

def Request.describe (id : DocumentId) : Request → String
  | .addInline => s!"add an inline document to {id}"
  | .replace => s!"replace {id}"
  | .reanalyze => s!"re-analyze {id}"

def Fault.message : Fault → String
  | .coordinateOverflow => "attempt to add with overflow"
  | .foreignRange =>
    "assertion `left == right` failed: scanned feature resolved against a foreign document"
  | .outOfBounds size index =>
    s!"index out of bounds: the len is {size} but the index is {index}"
  | .noSuchDocument request id =>
    s!"internal analyzer error: cannot {request.describe id}: no such document"
  | .nestingTooDeep => "internal analyzer error: inline documents are nested too deeply"

/-- The sum of two coordinates, if it fits. -/
def checkedAdd (a b : UInt32) : Except Fault UInt32 :=
  if a.toNat + b.toNat < UInt32.size then .ok (a + b) else .error .coordinateOverflow

end PageLint
