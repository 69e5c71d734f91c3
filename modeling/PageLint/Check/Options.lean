import PageLint.Config
import PageLint.Feature.Resolution
/-!
# Options of a check

What a check is asked to do. An option that is given goes before the setting of the
project.
-/

namespace PageLint

/-- When to use colours. -/
inductive ColorChoice where
  /-- On a terminal, if the project allows it. -/
  | auto
  | always
  | never
deriving DecidableEq, Inhabited

namespace ColorChoice

def name : ColorChoice → String
  | .auto => "auto"
  | .always => "always"
  | .never => "never"

def ofName? (s : String) : Option ColorChoice :=
  [ColorChoice.auto, .always, .never].find? (·.name = s)

end ColorChoice

structure CheckOptions where
  /-- Nothing is said but the warnings. -/
  quiet : Bool
  /-- Every document is listed. -/
  verbose : Bool
  color : ColorChoice
  /-- The configuration or the directory that holds it. -/
  config : Option Path
  /-- The files to check and the directories to search. -/
  paths : List Path
  verbosity : Option Verbosity
  format : Option ReportFormat
  parallel : Bool
deriving DecidableEq

namespace CheckOptions

def reportFormat (options : CheckOptions) (settings : OutputSettings) : ReportFormat :=
  options.format.getD settings.format

/-- How warnings are printed, to a terminal or elsewhere. -/
def printStyle (options : CheckOptions) (settings : OutputSettings) (terminal : Bool) :
    PrintStyle where
  verbosity := options.verbosity.getD settings.verbosity
  color := match options.color with
    | .auto => settings.color && terminal
    | .always => true
    | .never => false

def resolutionMode (options : CheckOptions) (settings : AnalysisSettings) : ResolutionMode :=
  if options.parallel || settings.parallel then .parallel else .sequential

end CheckOptions

end PageLint
