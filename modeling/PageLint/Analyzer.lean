import PageLint.Document.Table
import PageLint.Feature.Resolution
import PageLint.Scanner.Script
import PageLint.Scanner.Style
/-!
# The analyzer

Reads a document with the scanners of its language, resolves what they find, and
goes on with every document inside it, each linked back to the document around.
-/

namespace PageLint

/-- Scanners, in the order in which they look at a document, and how their
findings are resolved. -/
structure Analyzer where
  scanners : List Scanner
  mode : ResolutionMode

namespace Analyzer

def pageScanners : List Scanner := [Script.scanner, Style.scanner]

/-- How many documents may be inside each other. -/
def nestingLimit : Nat := 10000

theorem nestingLimit_pos : 0 < nestingLimit := by decide

/-- Lets a scanner look at a document. Its findings come after earlier ones, its
warnings are warnings of the document. -/
def runScanner (state : Document × List ScannedFeature) (scanner : Scanner) :
    Except Fault (Document × List ScannedFeature) := do
  let (document, found) := state
  let result ← scanner.scan document
  pure ({ document with warnings := document.warnings ++ result.warnings },
    found ++ result.features)

/-- The document of a text with all its features. The first scanner of the
language builds the tree; `leading` findings come before those of the scanners. -/
def build (a : Analyzer) (url : Path) (language : Language) (contents : String)
    (offset : Option Offset) (leading : List ScannedFeature) : Except Fault Document := do
  let scanners := a.scanners.filter (·.language = language)
  let parsed ← match scanners.head? with
    | some scanner => scanner.parse url contents offset
    | none => pure Markup.Parsed.empty
  let document : Document :=
    ⟨url, language, contents, parsed.tree, offset, [], parsed.warnings⟩
  let (document, found) ← scanners.foldlM runScanner (document, leading)
  let resolution ← resolveAll a.mode document found
  pure { document with
    features := resolution.features
    warnings := document.warnings ++ resolution.warnings }

/-- Adds the documents inside a container, each with the documents inside it, down
to a depth. -/
def addInline (a : Analyzer) :
    Nat → Table → DocumentId → List InlineDocument → Except Fault Table
  | _, t, _, [] => .ok t
  | 0, _, _, _ :: _ => .error .nestingTooDeep
  | depth + 1, t, container, children =>
    children.foldlM (fun t child =>
      match t.get? container with
      | none => .ok t
      | some outer => do
        let document ← a.build outer.url child.language child.contents (some child.offset)
          [.backreference container]
        let (t, id) ← t.insertInline container document
        a.addInline depth t id document.inlineDocuments) t

def analyze (a : Analyzer) (t : Table) (url : Path) (language : Language) (contents : String) :
    Except Fault (Table × DocumentId) := do
  let document ← a.build url language contents none []
  let (t, id) := t.insert document
  let t ← a.addInline nestingLimit t id document.inlineDocuments
  pure (t, id)

/-- Puts new contents in the place of a document and of all that was inside it. -/
def reanalyze (a : Analyzer) (t : Table) (id : DocumentId) (contents : String) :
    Except Fault Table := do
  match t.get? id with
  | none => .error (.noSuchDocument .reanalyze id)
  | some old =>
    let document ← a.build old.url old.language contents none []
    let (_, t) ← t.replace id document
    a.addInline nestingLimit t id document.inlineDocuments

end Analyzer

end PageLint
