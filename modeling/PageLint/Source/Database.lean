import PageLint.Source.Disk
import PageLint.Source.File
/-!
# The source database

The texts that diagnostics point into, one for each path up to spelling. A
database over a disk reads what it does not hold and keeps what it read; one in
memory has only what was added.
-/

namespace PageLint

/-- Why the content of a path is not to be had. -/
inductive LoadError where
  | notFound (path : Path)
  | unreadable (path : Path) (cause : ReadError)
  | unavailable (path : Path) (reason : String)
deriving DecidableEq

def LoadError.path : LoadError → Path
  | .notFound path => path
  | .unreadable path _ => path
  | .unavailable path _ => path

def LoadError.message : LoadError → String
  | .notFound path => s!"no such file: {path}"
  | .unreadable path cause => s!"failed to read {path}: {cause.message}"
  | .unavailable path reason => s!"content of {path} is unavailable: {reason}"

/-- Gives the file at a path. -/
abbrev Loader := Path → Except LoadError SourceFile

/-- The texts of the lines of a file from `first` to `last`. -/
def Loader.lines (load : Loader) (path : Path) (first last : UInt32) :
    Except LoadError (List String) :=
  (load path).map (·.lineTexts first last)

/-- The files held, and the disk behind them if there is one. -/
structure Database where
  files : List SourceFile
  disk : Option Disk

namespace Database

/-- The database that holds nothing and reads nothing. -/
def inMemory : Database := ⟨[], none⟩

/-- The database that holds nothing and reads from a disk. -/
def onDisk (disk : Disk) : Database := ⟨[], some disk⟩

/-- The file held for a path. -/
def get? (db : Database) (path : Path) : Option SourceFile :=
  db.files.find? (·.path.Same path)

/-- Holds `file`, in place of what was held for its path. -/
def add (db : Database) (file : SourceFile) : Database :=
  if db.files.any (·.path.Same file.path) then
    { db with files := db.files.map fun f => if f.path.Same file.path then file else f }
  else { db with files := db.files ++ [file] }

def size (db : Database) : Nat := db.files.length

/-- The file for a path, and the database that holds it from then on. -/
def load (db : Database) (path : Path) : Except LoadError SourceFile × Database :=
  match db.get? path, db.disk with
  | some file, _ => (.ok file, db)
  | none, none => (.error (.notFound path), db)
  | none, some disk =>
    match disk.readText path with
    | .ok content =>
      let file := SourceFile.ofContent path content
      (.ok file, db.add file)
    | .error .notFound => (.error (.notFound path), db)
    | .error cause => (.error (.unreadable path cause), db)

/-- The loader that answers from the database as it is. -/
def loader (db : Database) : Loader := fun path => (db.load path).1

end Database

end PageLint
