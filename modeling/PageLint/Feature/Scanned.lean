import PageLint.Diagnostic.Warning
import PageLint.Feature.Language
import PageLint.Id
/-!
# Scanned features

What scanners find in a document, before it is known whether it makes sense.
-/

namespace PageLint

structure Param where
  name : String
  type : Option String
deriving DecidableEq, Inhabited

structure ReturnInfo where
  type : Option String
  description : String
deriving DecidableEq, Inhabited

structure FunctionDecl where
  name : String
  description : Option String
  summary : Option String
  params : List Param
  returns : Option ReturnInfo
  node : Option NodeId
deriving DecidableEq, Inhabited

structure ImportRef where
  /-- The name of the kind of reference. -/
  type : String
  url : String
  urlRange : Option SourceRange
  lazy : Bool
  node : Option NodeId
deriving DecidableEq, Inhabited

structure InlineDocument where
  language : Language
  contents : String
  offset : Offset
  isModule : Bool
  node : Option NodeId
deriving DecidableEq, Inhabited

/-- A feature that is described by tags alone. The tags and names are sets, the
attributes have one value for each name. -/
structure ExtensionTags where
  kinds : List FeatureKind
  identifiers : List String
  attributes : List (String × String)
deriving DecidableEq, Inhabited

/-- What a scanner found. -/
inductive ScannedFeature where
  | function (decl : FunctionDecl) (range : SourceRange) (warnings : List Warning)
  | reference (ref : ImportRef) (range : SourceRange) (warnings : List Warning)
  | inlineDocument (document : InlineDocument) (range : SourceRange) (warnings : List Warning)
  /-- The link from an inline document to the one around it. -/
  | backreference (container : DocumentId)
  | extension (tags : ExtensionTags) (range : Option SourceRange) (warnings : List Warning)
deriving DecidableEq, Inhabited

namespace ScannedFeature

/-- Where the feature was found. -/
def range? : ScannedFeature → Option SourceRange
  | .function _ range _ => some range
  | .reference _ range _ => some range
  | .inlineDocument _ range _ => some range
  | .backreference _ => none
  | .extension _ range _ => range

/-- What the scanner had to say about the feature. -/
def warnings : ScannedFeature → List Warning
  | .function _ _ warnings => warnings
  | .reference _ _ warnings => warnings
  | .inlineDocument _ _ warnings => warnings
  | .backreference _ => []
  | .extension _ _ warnings => warnings

/-- The element the feature was found at. -/
def node? : ScannedFeature → Option NodeId
  | .function decl _ _ => decl.node
  | .reference ref _ _ => ref.node
  | .inlineDocument document _ _ => document.node
  | .backreference _ => none
  | .extension .. => none

end ScannedFeature

end PageLint
