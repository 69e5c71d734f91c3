import PageLint.Check.Run
import PageLint.CommandLine
/-!
# The program

Reads from the disk what a check looks at, carries the check out and prints what it
wrote.
-/

namespace PageLint.Program

/-- The place that a chain of names from the root leads to. -/
def absolute (names : List String) : String := "/" ++ "/".intercalate names

/-- The chains of names from the root that a path leads along. -/
def stations (start : List String) : List String → List (List String)
  | [] => []
  | segment :: segments =>
    let next :=
      if segment = "" || segment = "." then start
      else if segment = ".." then start.dropLast
      else start ++ [segment]
    next :: stations next segments

/-- What is at a place: a file with its bytes, or a directory without what it
holds. -/
def readStation (names : List String) : IO (Option Entry) := do
  let place := (← IO.currentDir) / absolute names
  if ← place.isDir then pure (some (.directory []))
  else if ← place.pathExists then pure (some (.file (← IO.FS.readBinFile place)))
  else pure none

/-- What is at a place: a directory with all that it holds under names that are not
hidden, a file with its bytes if its name is wanted. -/
partial def readTree (wanted : String → Bool) (names : List String) : IO (Option Entry) := do
  let place := (← IO.currentDir) / absolute names
  if ← place.isDir then
    let inner ← (← place.readDir).toList.filterMapM fun e => do
      if isHiddenName e.fileName then pure none
      else
        let entry ← readTree wanted (names ++ [e.fileName])
        pure (entry.map (e.fileName, ·))
    pure (some (.directory inner))
  else if names.getLast?.any wanted then readStation names
  else if ← place.pathExists then pure (some (.file .empty))
  else pure none

/-- Adds to a disk what a path leads along and to. -/
def copyPath (disk : Disk) (path : Path) : IO Disk := do
  let start := if path.isAbsolute then [] else disk.workingDirectory
  (stations start path.segments).foldlM (fun disk names => do
    match ← readStation names with
    | some entry => pure { disk with root := disk.root.insert names entry }
    | none => pure disk) disk

/-- Adds to a disk all documents that a path leads to. -/
def copyDocuments (settings : AnalysisSettings) (disk : Disk) (path : Path) : IO Disk := do
  let disk ← copyPath disk path
  let start := if path.isAbsolute then [] else disk.workingDirectory
  let names := (stations start path.segments).getLast?.getD start
  let wanted (name : String) : Bool := (Path.mk name).extension?.any settings.matchesExtension
  if disk.isDirectory path then
    match ← readTree wanted names with
    | some (.directory inner) =>
      pure { disk with
        root := inner.foldl (fun root e => root.insert (names ++ [e.1]) e.2) disk.root }
    | _ => pure disk
  else pure disk

/-- The disk that a check looks at. -/
def readDisk (options : CheckOptions) : IO Disk := do
  let here := (← IO.currentDir).toString
  let names := (Path.mk here).segments.filter (· ≠ "")
  let disk : Disk := ⟨(Entry.directory []).insert names (.directory []), names⟩
  let dir := options.config.getD ⟨""⟩
  let disk ← [dir, dir.join Config.fileName].foldlM copyPath disk
  match Check.loadConfig disk options.config with
  | .error _ => pure disk
  | .ok config => options.paths.foldlM (copyDocuments config.analysis) disk

end PageLint.Program

open PageLint

/-- Does what the arguments ask for and gives the exit code. -/
def main (arguments : List String) : IO UInt32 := do
  match CommandLine.parse arguments with
  | .version =>
    IO.print CommandLine.version
    pure 0
  | .help =>
    IO.print CommandLine.usage
    pure 0
  | .refused =>
    IO.eprint CommandLine.usage
    pure 2
  | .check options =>
    let disk ← Program.readDisk options
    let terminal ← (← IO.getStderr).isTty
    let outcome := Check.run disk terminal options
    IO.print outcome.output
    IO.eprint outcome.messages
    pure outcome.status.exitCode.toUInt32
