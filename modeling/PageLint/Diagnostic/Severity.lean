import PageLint.Text.Basic
/-!
# Severities

How bad a finding is. An error makes a check fail; warnings and informations do
not. Names are read in any case of ASCII letters.
-/

namespace PageLint

/-- How bad a finding is, the worst first. -/
inductive Severity where
  | error
  | warning
  | info
deriving DecidableEq, Inhabited

namespace Severity

def name : Severity → String
  | .error => "error"
  | .warning => "warning"
  | .info => "info"

def ofName? (s : String) : Option Severity :=
  let lower := Text.lower s
  if lower = "error" then some .error
  else if lower = "warning" then some .warning
  else if lower = "info" then some .info
  else none

def unknownMessage (s : String) : String :=
  s!"unknown severity value - {s} - encountered while printing warning"

/-- The place in the order of severities. -/
def rank : Severity → Nat
  | .error => 0
  | .warning => 1
  | .info => 2

instance : Ord Severity := ⟨fun a b => compareOfLessAndEq a.rank b.rank⟩

/-- Red for errors, yellow for warnings, green for informations, as the number
that a terminal selects the colour by. -/
def colour : Severity → Nat
  | .error => 31
  | .warning => 33
  | .info => 32

def paint (severity : Severity) (text : String) : String :=
  s!"\x1b[{severity.colour}m{text}\x1b[0m"

theorem ofName?_name (severity : Severity) : ofName? severity.name = some severity := by
  cases severity <;> decide +kernel

end Severity

end PageLint
