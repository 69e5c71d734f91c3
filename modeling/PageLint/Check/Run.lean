import PageLint.Analyzer
import PageLint.Check.Discovery
import PageLint.Check.Report
/-!
# Checks

A check loads the settings of the project, finds the documents, analyzes them and
reports what it found. Whether it fails depends on the findings only, not on how
they are reported.
-/

namespace PageLint

/-- Why a check could not be carried out. -/
inductive CheckError where
  /-- The configuration that was named could not be read. -/
  | configUnreadable (cause : ReadError)
  | config (error : ConfigError)
  /-- The configuration that was named is not there. -/
  | noConfig (path : Path)
  /-- A path to check leads nowhere. -/
  | noPath (path : Path)
  | load (error : LoadError)
  | fault (f : Fault)
deriving DecidableEq

def CheckError.message : CheckError → String
  | .configUnreadable cause => cause.message
  | .config error => error.message
  | .noConfig path => s!"config file {path} does not exist"
  | .noPath path => s!"{path} does not exist"
  | .load error => error.message
  | .fault f => f.message

inductive CheckStatus where
  /-- No warning is an error. -/
  | passed
  | errorsFound
  /-- The check could not be carried out. -/
  | failed
deriving DecidableEq

def CheckStatus.exitCode : CheckStatus → UInt8
  | .passed => 0
  | .errorsFound => 1
  | .failed => 2

/-- How a check ended and what it wrote. -/
structure Outcome where
  status : CheckStatus
  /-- What was written to the standard output. -/
  output : String
  /-- What was written to the standard error. -/
  messages : String
deriving DecidableEq

/-- The outcome of a check that failed after some messages. -/
def Outcome.failure (messages : String) (error : CheckError) : Outcome :=
  ⟨.failed, "", s!"{messages}error: {error.message}\n"⟩

/-- The documents of a check with the sources their warnings point into. -/
structure Analysis where
  table : Table
  sources : Database

namespace Check

/-- The settings that a check goes by: those of the file or the directory that was
named, or of the working directory. -/
def loadConfig (disk : Disk) : Option Path → Except CheckError Config
  | none => (Config.loadOrDefault disk ⟨""⟩).mapError .config
  | some path =>
    if disk.isFile path then do
      let text ← (disk.readText path).mapError .configUnreadable
      (Config.parse text).mapError .config
    else if disk.isDirectory path then (Config.loadOrDefault disk path).mapError .config
    else .error (.noConfig path)

/-- Loads a document and adds it to an analysis. What is not known to be in another
language is a page. -/
def analyzeFile (analyzer : Analyzer) (analysis : Analysis) (path : Path) :
    Except CheckError Analysis := do
  let (file, sources) := analysis.sources.load path
  let file ← file.mapError .load
  let language := (Language.ofPath? path).getD .html
  let (table, _) ← (analyzer.analyze analysis.table path language file.content).mapError .fault
  pure ⟨table, sources⟩

def analyze (disk : Disk) (mode : ResolutionMode) (paths : List Path) :
    Except CheckError Analysis :=
  paths.foldlM (analyzeFile ⟨Analyzer.pageScanners, mode⟩) ⟨Table.empty, .onDisk disk⟩

/-- A line for every document of an analysis. -/
def listing (analysis : Analysis) : String :=
  String.join (analysis.table.entries.map fun (id, document) =>
    let count := document.features.length
    s!"   {id} {document.url} [{document.language}]: {count} feature(s)\n")

def unlessQuiet (options : CheckOptions) (text : String) : String :=
  if options.quiet then "" else text

/-- The outcome of a check that could be carried out, after some messages. -/
def report (options : CheckOptions) (settings : OutputSettings) (terminal : Bool)
    (messages : String) (analysis : Analysis) : Outcome :=
  let warnings := Warning.sorted analysis.table.warnings
  let status := if Report.errorCount warnings = 0 then .passed else .errorsFound
  let listed := if options.verbose then unlessQuiet options (listing analysis) else ""
  match options.reportFormat settings with
  | .text =>
    let printer : Printer :=
      ⟨analysis.sources.loader, options.printStyle settings terminal⟩
    ⟨status, "", messages ++ listed ++ printer.renderAll warnings ++
      unlessQuiet options (Report.result warnings)⟩
  | .json => ⟨status, Report.json warnings, messages ++ listed⟩

/-- Carries out a check. `terminal` tells whether messages go to a terminal. -/
def run (disk : Disk) (terminal : Bool) (options : CheckOptions) : Outcome :=
  match loadConfig disk options.config with
  | .error e => .failure "" e
  | .ok config =>
    match disk.discover config.analysis options.paths with
    | .error path => .failure "" (.noPath path)
    | .ok [] => ⟨.passed, "", unlessQuiet options "warning: no documents found\n"⟩
    | .ok paths =>
      let messages := unlessQuiet options s!"   Checking {paths.length} document(s)\n"
      match analyze disk (options.resolutionMode config.analysis) paths with
      | .error e => .failure messages e
      | .ok analysis => report options config.output terminal messages analysis

end Check

end PageLint
