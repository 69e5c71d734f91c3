/-!
# File paths

A path keeps the spelling it was given, but paths are compared by their
components: repeated and trailing slashes and inner `.` segments do not count,
while a leading `.` and every `..` do.
-/

namespace PageLint

/-- A path as it was written. -/
structure Path where
  text : String
deriving DecidableEq, Inhabited

namespace Path

/-- A step of a path. -/
inductive Component where
  | root
  | here
  | up
  | name (name : String)
deriving DecidableEq

/-- The place of the kinds of component in the order of paths. -/
def Component.rank : Component → Nat
  | .root => 0
  | .here => 1
  | .up => 2
  | .name _ => 3

/-- Components are ordered by kind, names among themselves by their bytes. -/
def Component.compare : Component → Component → Ordering
  | .name s, .name t => compareOfLessAndEq s t
  | a, b => compareOfLessAndEq a.rank b.rank

instance : Ord Component := ⟨Component.compare⟩

instance : ToString Path := ⟨Path.text⟩

/-- The pieces between the slashes of a path. -/
def segments (p : Path) : List String :=
  (p.text.toList.splitOn '/').map String.ofList

/-- Whether the path starts at the root. -/
def isAbsolute (p : Path) : Bool :=
  p.text.toList.head? = some '/'

/-- The step a segment stands for; an empty segment and `.` stand for none. -/
def Component.ofSegment? (s : String) : Option Component :=
  if s = "" || s = "." then none
  else if s = ".." then some .up
  else some (.name s)

/-- The steps of a path. -/
def components (p : Path) : List Component :=
  let start :=
    if p.isAbsolute then [.root]
    else if p.segments.head? = some "." then [.here]
    else []
  start ++ p.segments.filterMap Component.ofSegment?

/-- Whether two paths have the same components. -/
def Same (p q : Path) : Prop := p.components = q.components

instance (p q : Path) : Decidable (p.Same q) :=
  inferInstanceAs (Decidable (_ = _))

/-- The order of lists by their first difference, a beginning before the whole. -/
def compareComponents : List Component → List Component → Ordering
  | [], [] => .eq
  | [], _ :: _ => .lt
  | _ :: _, [] => .gt
  | a :: as, b :: bs => (a.compare b).then (compareComponents as bs)

/-- Paths are ordered by their components. -/
def compare (p q : Path) : Ordering :=
  compareComponents p.components q.components

instance : Ord Path := ⟨Path.compare⟩

/-- The path of `name` inside the directory `dir`. -/
def join (dir : Path) (name : String) : Path :=
  if dir.text = "" || dir.text.toList.getLast? = some '/' then ⟨dir.text ++ name⟩
  else ⟨dir.text ++ "/" ++ name⟩

/-- The name that the path ends in. -/
def fileName? (p : Path) : Option String :=
  match p.components.getLast? with
  | some (.name s) => some s
  | _ => none

/-- The part of a file name after its last dot, unless that dot starts the name. -/
def extension? (p : Path) : Option String :=
  p.fileName?.bind fun name =>
    let pieces := name.toList.splitOn '.'
    if 2 ≤ pieces.length && pieces.dropLast ≠ [[]] then
      pieces.getLast?.map String.ofList
    else none

theorem Same.refl (p : Path) : p.Same p := rfl

theorem Same.symm {p q : Path} (h : p.Same q) : q.Same p := Eq.symm h

theorem Same.trans {p q r : Path} (h : p.Same q) (h' : q.Same r) : p.Same r := Eq.trans h h'

end Path

end PageLint
