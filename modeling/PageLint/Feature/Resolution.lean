import PageLint.Document.Basic
import PageLint.Ordered
import PageLint.Text.Blank
import PageLint.Url
/-!
# Resolution

Turns what scanners found into features of a document. A finding without a name,
a url or a kind makes no feature but an error. Findings are resolved one by one
or all at once, with the same outcome.
-/

namespace PageLint

/-- Whether findings are resolved one after the other. -/
inductive ResolutionMode where
  | sequential
  | parallel
deriving DecidableEq, Inhabited

def ResolutionMode.name : ResolutionMode → String
  | .sequential => "sequential"
  | .parallel => "parallel"

def ResolutionMode.ofName? (s : String) : Option ResolutionMode :=
  [ResolutionMode.sequential, .parallel].find? (·.name = s)

/-- What became of a finding: a feature, or the error that there is none. -/
abbrev Resolved := Except Warning Feature

/-- The set of some kinds, at least one. -/
def kindSet (first : FeatureKind) (others : List FeatureKind) : List FeatureKind :=
  Ordered.insert FeatureKind.compare first (Ordered.ofList FeatureKind.compare others)

theorem kindSet_ne_nil (first : FeatureKind) (others : List FeatureKind) :
    kindSet first others ≠ [] :=
  Ordered.insert_ne_nil _ _ _

/-- The feature of a function; a function needs a name. -/
def FunctionDecl.resolve (decl : FunctionDecl) (range : SourceRange) (warnings : List Warning) :
    Resolved :=
  if Text.isBlank decl.name then
    .error (.error "invalid-function-name" "function declaration has no name" range)
  else
    .ok ⟨kindSet .function [], kindSet_ne_nil _ _, [decl.name], some range, warnings,
      .function decl⟩

/-- The feature of a reference; a reference needs a url. -/
def ImportRef.resolve (ref : ImportRef) (document : Path) (range : SourceRange)
    (warnings : List Warning) : Resolved :=
  if Text.isBlank ref.url then
    .error (.error "empty-import-url" s!"{ref.type} import has an empty url"
      (ref.urlRange.getD range))
  else
    .ok ⟨kindSet .reference [FeatureKind.ofName ref.type], kindSet_ne_nil _ _, [],
      some range, warnings, .reference ref (Url.resolve document ref.url)⟩

def InlineDocument.resolve (document : InlineDocument) (range : SourceRange)
    (warnings : List Warning) : Feature :=
  ⟨kindSet .document [.inlineDocument, document.language.documentKind],
    kindSet_ne_nil _ _, [], some range, warnings, .inlineDocument document⟩

/-- The feature of a link to the document around. -/
def backreferenceFeature (container : DocumentId) : Feature :=
  ⟨kindSet .backreference [], kindSet_ne_nil _ _, [], none, [], .backreference container⟩

/-- The feature of some tags; there has to be a kind. -/
def ExtensionTags.resolve (tags : ExtensionTags) (range : Option SourceRange)
    (warnings : List Warning) : Resolved :=
  if h : tags.kinds = [] then
    .error ⟨"extension-without-kinds", "extension feature was scanned without any kind", .error,
      range⟩
  else .ok ⟨tags.kinds, h, tags.identifiers, range, warnings, .extension tags.attributes⟩

namespace ScannedFeature

/-- Whether a finding was made in the file of a document. -/
def isFoundIn (s : ScannedFeature) (document : Document) : Bool :=
  s.range?.all fun range => range.file.Same document.url

/-- What becomes of a finding in a document, wherever it says it was found. -/
def resolveAt (s : ScannedFeature) (document : Document) : Resolved :=
  match s with
  | .function decl range warnings => decl.resolve range warnings
  | .reference ref range warnings => ref.resolve document.url range warnings
  | .inlineDocument inner range warnings => .ok (inner.resolve range warnings)
  | .backreference container => .ok (backreferenceFeature container)
  | .extension tags range warnings => tags.resolve range warnings

/-- What becomes of a finding in a document. -/
def resolve (s : ScannedFeature) (document : Document) : Except Fault Resolved :=
  if s.isFoundIn document then .ok (s.resolveAt document) else .error .foreignRange

end ScannedFeature

/-- What became of a list of findings. -/
structure Resolution where
  features : List Feature
  warnings : List Warning
deriving DecidableEq

/-- The features and the errors among the outcomes, each in their order. -/
def Resolution.ofOutcomes (outcomes : List Resolved) : Resolution where
  features := outcomes.filterMap fun
    | .ok feature => some feature
    | .error _ => none
  warnings := outcomes.filterMap fun
    | .ok _ => none
    | .error warning => some warning

def ResolutionMode.map {α β : Type} (mode : ResolutionMode) (f : α → β) (as : List α) : List β :=
  match mode with
  | .sequential => as.map f
  | .parallel => (as.map fun a => Task.spawn fun _ => f a).map Task.get

theorem ResolutionMode.map_eq {α β : Type} (mode : ResolutionMode) (f : α → β) (as : List α) :
    mode.map f as = as.map f := by
  cases mode with
  | sequential => rfl
  | parallel => simp [ResolutionMode.map, Function.comp_def, Task.spawn]

/-- Resolves findings in a document. -/
def resolveAll (mode : ResolutionMode) (document : Document) (scanned : List ScannedFeature) :
    Except Fault Resolution := do
  let outcomes ← (mode.map (·.resolve document) scanned).mapM id
  pure (Resolution.ofOutcomes outcomes)

end PageLint
