import PageLint.Check.Options
import PageLint.Json.Records
/-!
# Reports

The warnings of a check in the order of their places, and how they are written.
-/

namespace PageLint

/-- Compares warnings by file and start. Those without a range come first. -/
def Warning.comparePlaces (w v : Warning) : Ordering :=
  match w.range, v.range with
  | none, none => .eq
  | none, some _ => .lt
  | some _, none => .gt
  | some r, some s => (r.file.compare s.file).then (compare r.start s.start)

/-- Warnings in the order of their places; those at one place stay as they are. -/
def Warning.sorted (ws : List Warning) : List Warning :=
  ws.mergeSort fun w v => (w.comparePlaces v).isLE

namespace Report

def errorCount (ws : List Warning) : Nat := ws.countP (·.severity = .error)

/-- The line that sums up a report. -/
def result (ws : List Warning) : String :=
  let errors := errorCount ws
  let others := ws.length - errors
  s!"   Result: {errors} error(s), {others} other warning(s)\n"

def json (ws : List Warning) : String := (Json.encode ws).pretty ++ "\n"

end Report

end PageLint
