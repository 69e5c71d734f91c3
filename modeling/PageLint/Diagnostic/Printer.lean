import PageLint.Diagnostic.Underline
import PageLint.Diagnostic.Warning
import PageLint.Source.Database
/-!
# Printing warnings

A warning is printed as a summary line, at full verbosity after the source
lines it is about, each with its underline. A warning whose source cannot be
shown keeps its summary. Warnings are written one by one, each as a whole.
-/

namespace PageLint

/-- How much of a warning is printed. -/
inductive Verbosity where
  | oneLine
  | full
deriving DecidableEq, Inhabited

namespace Verbosity

def name : Verbosity → String
  | .oneLine => "one-line"
  | .full => "full"

def ofName? (s : String) : Option Verbosity :=
  if s = "one-line" then some .oneLine
  else if s = "full" then some .full
  else none

def unknownMessage (s : String) : String :=
  s!"unknown verbosity '{s}' (expected 'one-line' or 'full')"

end Verbosity

/-- How warnings are printed. -/
structure PrintStyle where
  verbosity : Verbosity
  color : Bool
deriving DecidableEq

/-- All of a warning, in colour. -/
def PrintStyle.default : PrintStyle := ⟨.full, true⟩

/-- Prints warnings in a style, with the source lines that a loader gives. -/
structure Printer where
  load : Loader
  style : PrintStyle

namespace Printer

/-- A text in the colour of a severity, if the style has colours. -/
def paint (printer : Printer) (severity : Severity) (text : String) : String :=
  if printer.style.color then severity.paint text else text

/-- The line that says what a warning is and where. -/
def summary (printer : Printer) (w : Warning) : String :=
  let severity := printer.paint w.severity w.severity.name
  match w.range with
  | some range => s!"{range.file}({range.start}) {severity} [{w.code}] - {w.message}"
  | none => s!"{severity} [{w.code}] - {w.message}"

/-- A line and its underline. -/
def underlined (printer : Printer) (range : SourceRange) (severity : Option Severity)
    (number : UInt32) (line : String) : List String :=
  let marks := underline line number range
  [line, match severity with
    | some severity => printer.paint severity marks
    | none => marks]

/-- The lines numbered from `number` on, each with its underline. -/
def underlinedLines (printer : Printer) (range : SourceRange) (severity : Option Severity) :
    UInt32 → List String → List String
  | _, [] => []
  | number, line :: rest =>
    printer.underlined range severity number line ++
      printer.underlinedLines range severity (number + 1) rest

/-- The lines of a range with their underlines, in the colour of a severity if
one is given. -/
def underlinedText (printer : Printer) (range : SourceRange) (severity : Option Severity) :
    Except LoadError String := do
  let lines ← printer.load.lines range.file range.start.line range.stop.line
  if lines.isEmpty then
    .error (.unavailable range.file s!"line {range.start.line.toNat} is past the end of the file")
  else
    .ok ("\n".intercalate (printer.underlinedLines range severity range.start.line lines))

/-- What is printed before the summary of a warning that has no range. -/
def missingRangeNotice (code : String) : String :=
  s!"INTERNAL ERROR: Tried to print a '{code}' warning without a source range. " ++
    "Please report this!\n"

/-- The source lines of a warning, with blank lines around them, if the style
asks for them and they can be had. -/
def sourceBlock (printer : Printer) (w : Warning) : String :=
  match w.range, printer.style.verbosity with
  | some range, .full =>
    match printer.underlinedText range (some w.severity) with
    | .ok block => s!"\n\n{block}\n\n"
    | .error _ => ""
  | _, _ => ""

/-- A warning as it is printed. -/
def render (printer : Printer) (w : Warning) : String :=
  match w.range with
  | none => s!"{missingRangeNotice w.code}{printer.summary w}\n"
  | some _ => s!"{printer.sourceBlock w}{printer.summary w}\n"

def renderAll (printer : Printer) (ws : List Warning) : String :=
  String.join (ws.map printer.render)

end Printer

end PageLint
