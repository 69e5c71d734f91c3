import PageLint.Digest.ContentHash
import PageLint.Feature.Basic
import PageLint.Markup.Tree
/-!
# Documents

A text with its syntax tree, the features found in it and the warnings about it.
A document with an offset is embedded in the file of its url.
-/

namespace PageLint

/-- A text and what is known about it. -/
structure Document where
  url : Path
  language : Language
  contents : String
  tree : Markup.Tree
  offset : Option Offset
  features : List Feature
  warnings : List Warning
deriving DecidableEq

namespace Document

/-- A document of which nothing is known yet. -/
def bare (url : Path) (language : Language) (contents : String) (tree : Markup.Tree)
    (offset : Option Offset) : Document :=
  ⟨url, language, contents, tree, offset, [], []⟩

def isInline (d : Document) : Bool := d.offset.isSome

def contentHash (d : Document) : ContentHash := ContentHash.ofText d.contents

def addFeature (d : Document) (f : Feature) : Document :=
  { d with features := d.features ++ [f] }

def addWarning (d : Document) (w : Warning) : Document :=
  { d with warnings := d.warnings ++ [w] }

def featuresOfKind (d : Document) (kind : FeatureKind) : List Feature :=
  d.features.filter (·.hasKind kind)

/-- The features that can be looked up by a name. -/
def featuresNamed (d : Document) (name : String) : List Feature :=
  d.features.filter (·.hasIdentifier name)

def functions (d : Document) : List FunctionDecl :=
  d.features.filterMap Feature.function?

/-- The references of the document, each with what its url refers to. -/
def references (d : Document) : List (ImportRef × String) :=
  d.features.filterMap Feature.reference?

def inlineDocuments (d : Document) : List InlineDocument :=
  d.features.filterMap Feature.inlineDocument?

/-- The document that this one says it is in. -/
def backreference? (d : Document) : Option DocumentId :=
  d.features.findSome? Feature.container?

/-- The warnings about the document, then those of its features. -/
def allWarnings (d : Document) : List Warning :=
  d.warnings ++ d.features.flatMap (·.warnings)

end Document

end PageLint
