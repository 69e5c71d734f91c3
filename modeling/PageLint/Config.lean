import PageLint.Diagnostic.Printer
import PageLint.Source.Disk
import PageLint.Toml.Document
/-!
# Configuration

The settings of a project, read from a TOML file in its directory. Every setting
may be left out, and what is not a setting is passed over.
-/

namespace PageLint

inductive ReportFormat where
  | text
  | json
deriving DecidableEq, Inhabited

namespace ReportFormat

def name : ReportFormat → String
  | .text => "text"
  | .json => "json"

def ofName? (s : String) : Option ReportFormat :=
  [ReportFormat.text, .json].find? (·.name = s)

end ReportFormat

structure OutputSettings where
  verbosity : Verbosity
  color : Bool
  format : ReportFormat
deriving DecidableEq

/-- All of a warning, in colour, as text. -/
def OutputSettings.default : OutputSettings := ⟨.full, true, .text⟩

/-- How documents are found and analyzed. -/
structure AnalysisSettings where
  parallel : Bool
  /-- The extensions of documents, without the dot. -/
  extensions : List String
deriving DecidableEq

namespace AnalysisSettings

/-- Pages, one after the other. -/
def default : AnalysisSettings := ⟨false, ["html", "htm"]⟩

/-- Whether an extension is one of documents, in any case of ASCII letters. -/
def matchesExtension (settings : AnalysisSettings) (extension : String) : Bool :=
  settings.extensions.any (Text.equalIgnoringCase · extension)

end AnalysisSettings

structure Config where
  output : OutputSettings
  analysis : AnalysisSettings
deriving DecidableEq

inductive ConfigError where
  | unreadable (cause : ReadError)
  /-- The text is no TOML, or a setting has a value of the wrong kind. -/
  | malformed
  | noExtensions
  | badExtension (extension : String)
deriving DecidableEq

/-- The text of a configuration error. What is wrong with a malformed text is not
said. -/
def ConfigError.message : ConfigError → String
  | .unreadable cause => s!"failed to read configuration: {cause.message}"
  | .malformed => "failed to parse configuration: "
  | .noExtensions => "validation error: analysis.extensions must list at least one extension"
  | .badExtension extension =>
    s!"validation error: invalid extension '{extension}' " ++
      "(write extensions without a leading dot)"

namespace Config

/-- The settings of a project that has made none. -/
def default : Config := ⟨.default, .default⟩

/-- The name of the file in the directory of a project. -/
def fileName : String := "vellum.toml"

/-- The value of a setting: `otherwise` where nothing is set. -/
def setting {α : Type} (read : Toml → Option α) (otherwise : α) : Option Toml → Option α
  | none => some otherwise
  | some v => read v

def readOutput (written : Toml) : Option OutputSettings := do
  let [verbosity, color, format] ← written.fields? ["verbosity", "color", "format"] | none
  pure {
    verbosity := ← setting (fun v => v.variant?.bind Verbosity.ofName?)
      OutputSettings.default.verbosity verbosity
    color := ← setting Toml.boolean? OutputSettings.default.color color
    format := ← setting (fun v => v.variant?.bind ReportFormat.ofName?)
      OutputSettings.default.format format }

def readAnalysis (written : Toml) : Option AnalysisSettings := do
  let [parallel, extensions] ← written.fields? ["parallel", "extensions"] | none
  pure {
    parallel := ← setting Toml.boolean? AnalysisSettings.default.parallel parallel
    extensions := ← setting (fun v => do (← v.items?).mapM Toml.text?)
      AnalysisSettings.default.extensions extensions }

def ofToml? (document : Toml) : Option Config := do
  let [output, analysis] ← document.fields? ["output", "analysis"] | none
  pure {
    output := ← setting readOutput .default output
    analysis := ← setting readAnalysis .default analysis }

/-- Whether an extension can be that of a file. -/
def isExtension (extension : String) : Bool :=
  match extension.toList.head? with
  | none => false
  | some c => c ≠ '.'

/-- The settings, if they can be met. -/
def validate (config : Config) : Except ConfigError Config :=
  if config.analysis.extensions = [] then .error .noExtensions
  else match config.analysis.extensions.find? (fun e => !isExtension e) with
    | some extension => .error (.badExtension extension)
    | none => .ok config

def parse (text : String) : Except ConfigError Config :=
  match (Toml.parse? text).bind ofToml? with
  | some config => config.validate
  | none => .error .malformed

/-- The settings of the project in a directory, which has to have a configuration. -/
def load (disk : Disk) (dir : Path) : Except ConfigError Config :=
  match disk.readText (dir.join fileName) with
  | .ok text => parse text
  | .error cause => .error (.unreadable cause)

/-- The settings of the project in a directory, if it has made any. -/
def loadOrDefault (disk : Disk) (dir : Path) : Except ConfigError Config :=
  if disk.isFile (dir.join fileName) then load disk dir else .ok default

end Config

end PageLint
