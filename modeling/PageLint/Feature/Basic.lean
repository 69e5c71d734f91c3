import PageLint.Feature.Scanned
/-!
# Features

Facts about a document. A feature has at least one kind, the names it can be
looked up by, and the warnings that were found with it.
-/

namespace PageLint

/-- What a feature says besides its kinds and names. -/
inductive Payload where
  | function (decl : FunctionDecl)
  | reference (ref : ImportRef) (resolvedUrl : String)
  | inlineDocument (document : InlineDocument)
  | backreference (container : DocumentId)
  | extension (attributes : List (String × String))
deriving DecidableEq

/-- A fact about a document. -/
structure Feature where
  kinds : List FeatureKind
  kinds_ne_nil : kinds ≠ []
  identifiers : List String
  range : Option SourceRange
  warnings : List Warning
  payload : Payload
deriving DecidableEq

namespace Feature

def hasKind (f : Feature) (kind : FeatureKind) : Bool := f.kinds.contains kind

/-- Whether a feature can be looked up by a name. -/
def hasIdentifier (f : Feature) (name : String) : Bool := f.identifiers.contains name

def function? (f : Feature) : Option FunctionDecl :=
  match f.payload with
  | .function decl => some decl
  | _ => none

/-- The reference that a feature is about, and what its url refers to. -/
def reference? (f : Feature) : Option (ImportRef × String) :=
  match f.payload with
  | .reference ref resolvedUrl => some (ref, resolvedUrl)
  | _ => none

/-- The inline document that a feature is about. -/
def inlineDocument? (f : Feature) : Option InlineDocument :=
  match f.payload with
  | .inlineDocument document => some document
  | _ => none

/-- The document that a feature names as the one around its own. -/
def container? (f : Feature) : Option DocumentId :=
  match f.payload with
  | .backreference container => some container
  | _ => none

instance : ToString Feature where
  toString f :=
    match f.payload with
    | .function decl => s!"<Function id={decl.name}>"
    | .reference ref _ => s!"<Import url={ref.url}>"
    | .inlineDocument document => s!"<InlineDocument lang={document.language}>"
    | .backreference container => s!"<DocumentBackreference container={container}>"
    | .extension _ =>
      let kinds := ",".intercalate (f.kinds.map FeatureKind.name)
      s!"<Extension kinds={kinds}>"

end Feature

end PageLint
