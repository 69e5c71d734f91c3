/-!
# Kinds of features

The tags a feature is found by. Some are known to the analysis; any other name
is a tag as well.
-/

namespace PageLint

/-- A tag of a feature. -/
inductive FeatureKind where
  | function
  /-- A reference to another document. -/
  | reference
  /-- A script in a file of its own. -/
  | htmlScript
  | document
  | inlineDocument
  | htmlDocument
  | jsDocument
  | cssDocument
  | backreference
  /-- A tag that the analysis does not know. -/
  | custom (name : String)
deriving DecidableEq, Inhabited

namespace FeatureKind

def name : FeatureKind → String
  | .function => "function"
  | .reference => "import"
  | .htmlScript => "html-script"
  | .document => "document"
  | .inlineDocument => "inline-document"
  | .htmlDocument => "html-document"
  | .jsDocument => "js-document"
  | .cssDocument => "css-document"
  | .backreference => "document-backreference"
  | .custom name => name

/-- The kinds known to the analysis, in their order. -/
def known : List FeatureKind :=
  [.function, .reference, .htmlScript, .document, .inlineDocument, .htmlDocument, .jsDocument,
    .cssDocument, .backreference]

def ofName (name : String) : FeatureKind :=
  (known.find? (·.name = name)).getD (.custom name)

def isKnown : FeatureKind → Bool
  | .custom _ => false
  | _ => true

/-- The place of a kind in the order; all custom kinds share the last place. -/
def rank : FeatureKind → Nat
  | .function => 0
  | .reference => 1
  | .htmlScript => 2
  | .document => 3
  | .inlineDocument => 4
  | .htmlDocument => 5
  | .jsDocument => 6
  | .cssDocument => 7
  | .backreference => 8
  | .custom _ => 9

/-- Known kinds come first; custom kinds are ordered by the bytes of their names. -/
def compare : FeatureKind → FeatureKind → Ordering
  | .custom s, .custom t => compareOfLessAndEq s t
  | a, b => compareOfLessAndEq a.rank b.rank

instance : Ord FeatureKind := ⟨FeatureKind.compare⟩

instance : ToString FeatureKind := ⟨FeatureKind.name⟩

end FeatureKind

end PageLint
