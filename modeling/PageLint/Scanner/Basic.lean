import PageLint.Document.Basic
import PageLint.Markup.Parser
/-!
# Scanners

A scanner reads the documents of one language: it may build their syntax trees,
and it looks for features in them.
-/

namespace PageLint

/-- What a scanner found in a document. -/
structure ScanResult where
  features : List ScannedFeature
  warnings : List Warning
deriving DecidableEq, Inhabited

namespace ScanResult

def empty : ScanResult := ⟨[], []⟩

def isEmpty (r : ScanResult) : Bool := r.features.isEmpty && r.warnings.isEmpty

/-- What was found first, then what was found next. -/
def append (r s : ScanResult) : ScanResult :=
  ⟨r.features ++ s.features, r.warnings ++ s.warnings⟩

instance : Append ScanResult := ⟨append⟩

end ScanResult

/-- Reads the documents of a language. -/
structure Scanner where
  name : String
  language : Language
  parse : Path → String → Option Offset → Except Fault Markup.Parsed
  scan : Document → Except Fault ScanResult

/-- Builds no tree, for languages that are not markup. -/
def Scanner.parseNothing (_ : Path) (_ : String) (_ : Option Offset) :
    Except Fault Markup.Parsed :=
  .ok .empty

end PageLint
