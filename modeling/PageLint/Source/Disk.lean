import PageLint.Source.Path
/-!
# The disk

Files and directories as a value: a tree of entries and the directory that
relative paths start from. A path is followed segment by segment, and fails for
the first segment that cannot be taken.
-/

namespace PageLint

/-- A file or a directory with what it holds. -/
inductive Entry where
  | file (bytes : ByteArray)
  | directory (entries : List (String × Entry))
deriving Inhabited

inductive ReadError where
  | notFound
  | notADirectory
  | isADirectory
  | notText
deriving DecidableEq

def ReadError.message : ReadError → String
  | .notFound => "No such file or directory (os error 2)"
  | .notADirectory => "Not a directory (os error 20)"
  | .isADirectory => "Is a directory (os error 21)"
  | .notText => "stream did not contain valid UTF-8"

namespace Entry

/-- The entry with `new` at the end of a chain of names; directories on the way
are made where they are missing. A directory that is there stays as it is. -/
def insert : Entry → List String → Entry → Entry
  | .directory entries, [], .directory [] => .directory entries
  | _, [], new => new
  | .file _, name :: names, new => .directory [(name, insert (.directory []) names new)]
  | .directory entries, name :: names, new =>
    match entries.lookup name with
    | none => .directory (entries ++ [(name, insert (.directory []) names new)])
    | some child =>
      let child := insert child names new
      .directory (entries.map fun e => if e.1 = name then (name, child) else e)

/-- The entry without what is at the end of a chain of names. -/
def erase : Entry → List String → Entry
  | .directory entries, [name] => .directory (entries.filter (·.1 ≠ name))
  | .directory entries, name :: names =>
    .directory (entries.map fun e => if e.1 = name then (name, erase e.2 names) else e)
  | entry, _ => entry

end Entry

/-- A tree of entries and the chain of names, from the root, of the directory
that relative paths start from. -/
structure Disk where
  root : Entry
  workingDirectory : List String

namespace Disk

/-- A way down from the root, the innermost entry first. -/
abbrev Trail := List (String × Entry)

/-- Where a trail leads. -/
def current (disk : Disk) : Trail → Entry
  | [] => disk.root
  | (_, entry) :: _ => entry

/-- Takes one segment of a path. Above the root is the root. -/
def enter (disk : Disk) (trail : Trail) (segment : String) : Except ReadError Trail :=
  match disk.current trail with
  | .file _ => .error .notADirectory
  | .directory entries =>
    if segment = "" || segment = "." then .ok trail
    else if segment = ".." then .ok trail.tail
    else match entries.lookup segment with
      | none => .error .notFound
      | some entry => .ok ((segment, entry) :: trail)

/-- Follows a path. -/
def follow (disk : Disk) (p : Path) : Except ReadError Trail :=
  if p.text = "" then .error .notFound
  else do
    let start ← if p.isAbsolute then pure [] else disk.workingDirectory.foldlM disk.enter []
    p.segments.foldlM disk.enter start

/-- What is at a path. -/
def find (disk : Disk) (p : Path) : Except ReadError Entry :=
  (disk.follow p).map disk.current

def isFile (disk : Disk) (p : Path) : Bool :=
  match disk.find p with
  | .ok (.file _) => true
  | _ => false

def isDirectory (disk : Disk) (p : Path) : Bool :=
  match disk.find p with
  | .ok (.directory _) => true
  | _ => false

/-- The bytes of the file at a path. -/
def read (disk : Disk) (p : Path) : Except ReadError ByteArray := do
  match ← disk.find p with
  | .file bytes => .ok bytes
  | .directory _ => .error .isADirectory

/-- The text of the file at a path. -/
def readText (disk : Disk) (p : Path) : Except ReadError String := do
  match String.fromUTF8? (← disk.read p) with
  | some text => .ok text
  | none => .error .notText

/-- The disk without the file at a path, if there is one. -/
def remove? (disk : Disk) (p : Path) : Option Disk :=
  match disk.follow p with
  | .ok trail =>
    match disk.current trail with
    | .file _ => some { disk with root := disk.root.erase (trail.map (·.1)).reverse }
    | .directory _ => none
  | .error _ => none

end Disk

end PageLint
