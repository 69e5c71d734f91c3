import PageLint.Source.Path
import PageLint.Text.Basic
/-!
# Urls

How a url that is written in a page is read. A url with a scheme, from the root
or with its data in it stands for itself; any other is relative to a directory.
-/

namespace PageLint.Url

/-- Whether a url does not depend on where it is written. -/
def isAbsolute (url : String) : Bool :=
  Text.occursIn [':', '/', '/'] url.toList || url.toList.head? = some '/' ||
    "data:".toList.isPrefixOf url.toList

/-- Takes a segment of a path onto the segments before it, the last one first.
A segment `..` takes back a name; where there is none it stays in a relative
path and is dropped below the root. -/
def pushSegment (absolute : Bool) (stack : List String) (segment : String) : List String :=
  if segment = "" || segment = "." then stack
  else if segment = ".." then
    match stack with
    | last :: rest => if last ≠ ".." then rest else if absolute then stack else ".." :: stack
    | [] => if absolute then [] else [".."]
  else segment :: stack

/-- The segments of a path with `.` and `..` followed. -/
def foldSegments (absolute : Bool) (segments : List String) : List String :=
  (segments.foldl (pushSegment absolute) []).reverse

/-- A path with `.` and `..` followed and without empty segments. -/
def normalize (path : String) : String :=
  let absolute := path.toList.head? = some '/'
  let joined := "/".intercalate (foldSegments absolute (Path.mk path).segments)
  if absolute then "/" ++ joined else joined

/-- The directory part of a document's path, with slashes of one kind. -/
def directory (document : Path) : String :=
  let slashed := document.text.toList.map fun c => if c = '\\' then '/' else c
  String.ofList (Text.throughLast '/' slashed)

/-- What a url that is written in a document refers to. -/
def resolve (document : Path) (url : String) : String :=
  if isAbsolute url || url.toList.head? = some '#' then url
  else normalize (directory document ++ url)

/-- A url of a page whose base is given. -/
def applyBase (base : Option String) (url : String) : String :=
  match base with
  | none => url
  | some base =>
    if url = "" || isAbsolute url then url
    else String.ofList (Text.throughLast '/' base.toList) ++ url

end PageLint.Url
