import PageLint.Diagnostic.Severity
import PageLint.Source.Range
/-!
# Warnings

A finding about a page: a code that names its kind, a message, a severity, and
the part of a file it is about.
-/

namespace PageLint

/-- A finding about a page. -/
structure Warning where
  code : String
  message : String
  severity : Severity
  range : Option SourceRange
deriving DecidableEq, Inhabited

namespace Warning

/-- A finding that makes a check fail. -/
def error (code message : String) (range : SourceRange) : Warning :=
  ⟨code, message, .error, some range⟩

/-- A finding about a likely mistake. -/
def warning (code message : String) (range : SourceRange) : Warning :=
  ⟨code, message, .warning, some range⟩

/-- A finding that is worth knowing. -/
def info (code message : String) (range : SourceRange) : Warning :=
  ⟨code, message, .info, some range⟩

/-- Whether the finding makes a check fail. -/
def isError (w : Warning) : Bool := w.severity = .error

end Warning

end PageLint
