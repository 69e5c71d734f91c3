import PageLint.Config
/-!
# Finding documents

The files that a check looks at: those that are named, and in directories that are
named those with the extension of a document. Names that start with a dot are
passed over.
-/

namespace PageLint

def isHiddenName (name : String) : Bool := name.toList.head? = some '.'

mutual

/-- The documents at a path: the file itself if it has the extension of one, or
those in the directory. -/
def Entry.documents (settings : AnalysisSettings) (path : Path) : Entry → List Path
  | .file _ => if path.extension?.any settings.matchesExtension then [path] else []
  | .directory entries => documentsIn settings path entries

def documentsIn (settings : AnalysisSettings) (dir : Path) : List (String × Entry) → List Path
  | [] => []
  | (name, entry) :: entries =>
    (if isHiddenName name then [] else entry.documents settings (dir.join name)) ++
      documentsIn settings dir entries

end

/-- The documents that a path stands for, if it leads anywhere. -/
def Disk.documentsAt (disk : Disk) (settings : AnalysisSettings) (path : Path) :
    Option (List Path) :=
  match disk.find path with
  | .ok (.directory entries) => some (documentsIn settings path entries)
  | .ok (.file _) => some [path]
  | .error _ => none

/-- Paths without those that are the same as the one before. -/
def Path.withoutRepeats : List Path → List Path
  | [] => []
  | p :: ps => p :: after p ps
where
  /-- What is kept after a path that was kept. -/
  after (last : Path) : List Path → List Path
    | [] => []
    | p :: ps => if last.Same p then after last ps else p :: after p ps

/-- Paths in their order, each once. -/
def Path.sorted (paths : List Path) : List Path :=
  withoutRepeats (paths.mergeSort fun p q => (p.compare q).isLE)

/-- The documents to check, or the first path that leads nowhere. -/
def Disk.discover (disk : Disk) (settings : AnalysisSettings) (paths : List Path) :
    Except Path (List Path) := do
  let found ← paths.mapM fun path =>
    match disk.documentsAt settings path with
    | some documents => Except.ok documents
    | none => .error path
  pure (Path.sorted found.flatten)

end PageLint
