import PageLint.Feature.Kind
import PageLint.Source.Path
import PageLint.Text.Basic
/-!
# Languages

The languages that documents are written in, told from each other by the
extension of the file name.
-/

namespace PageLint

inductive Language where
  | html
  | javaScript
  | css
deriving DecidableEq, Inhabited

namespace Language

def name : Language → String
  | .html => "html"
  | .javaScript => "js"
  | .css => "css"

instance : ToString Language := ⟨Language.name⟩

def ofName? (s : String) : Option Language :=
  [Language.html, .javaScript, .css].find? (·.name = s)

/-- The kind of the documents of a language. -/
def documentKind : Language → FeatureKind
  | .html => .htmlDocument
  | .javaScript => .jsDocument
  | .css => .cssDocument

/-- The extensions of the files of a language, in lower case. -/
def extensions : Language → List String
  | .html => ["html", "htm", "xhtml"]
  | .javaScript => ["js", "mjs", "cjs"]
  | .css => ["css"]

/-- The language that the extension of a file name tells. -/
def ofPath? (path : Path) : Option Language :=
  path.extension?.bind fun extension =>
    [Language.html, .javaScript, .css].find? (·.extensions.contains (Text.lower extension))

end Language

end PageLint
