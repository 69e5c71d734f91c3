import PageLint.Diagnostic.Warning
import PageLint.Markup.Lexer
import PageLint.Markup.Tree
import PageLint.Source.File
/-!
# Building syntax trees

A start tag opens an element, which an end tag of its name closes together with
all that is still open inside it. Void and self-closing elements hold nothing.
What is open at the end of the page is closed there. Nothing that is written in
a page stops the building of its tree; what is wrong becomes a warning.
-/

namespace PageLint.Markup

/-- Finds the positions of bytes of a text that may be embedded in its file. -/
structure Locator where
  file : SourceFile
  offset : Option Offset

namespace Locator

/-- The position in the file of the byte at an offset of the text. -/
def position (locator : Locator) (byte : Nat) : Except Fault Position :=
  let p := locator.file.positionAt byte
  match locator.offset with
  | some offset => p.offsetBy offset
  | none => .ok p

/-- The part of the file that a span of the text covers. -/
def range (locator : Locator) (span : Span) : Except Fault SourceRange := do
  let start ← locator.position span.start
  let stop ← locator.position span.stop
  pure ⟨locator.file.path, start, stop⟩

end Locator

/-- Elements that have neither content nor an end tag. -/
def voidElements : List String :=
  ["area", "base", "br", "col", "embed", "hr", "img", "input", "link", "meta", "param",
    "source", "track", "wbr"]

/-- A tree that is being built. -/
structure Builder where
  tree : Tree
  /-- The elements that are still open, the innermost first. -/
  opened : List (NodeId × String)
  /-- The element of raw text that a text right after the last tag belongs to. -/
  awaiting : Option NodeId
  warnings : Array Warning

/-- The attribute of an element for an attribute of its start tag. -/
def Locator.attribute (locator : Locator) (raw : RawAttribute) : Except Fault Attribute := do
  let range ← locator.range (match raw.value with
    | some value => value.span
    | none => raw.nameSpan)
  pure ⟨raw.name, raw.value.map (·.text), range⟩

/-- The innermost of some open elements, if it is one of raw text. -/
def innermostRawText : List (NodeId × String) → Option NodeId
  | (id, name) :: _ => if isRawTextElement name then some id else none
  | [] => none

/-- Ends the elements of some ids at a position. -/
def stopAt (tree : Tree) (stop : Position) (ids : List (NodeId × String)) : Tree :=
  ids.foldl (fun tree id =>
    tree.modify id.1 fun node => { node with range := { node.range with stop } }) tree

namespace Builder

/-- Adds the element that a start tag opens. -/
def startTag (b : Builder) (locator : Locator) (name : String) (attributes : List RawAttribute)
    (selfClosing : Bool) (span : Span) : Except Fault Builder := do
  let attributes ← attributes.mapM locator.attribute
  let range ← locator.range span
  let ⟨tree, opened, _, warnings⟩ := b
  let (tree, id) := tree.push ⟨name, range, attributes, none, none, opened.head?.map (·.1)⟩
  let opened := if selfClosing || voidElements.contains name then opened else (id, name) :: opened
  let awaiting := if selfClosing then none else innermostRawText opened
  pure ⟨tree, opened, awaiting, warnings⟩

/-- Closes the innermost element of a name and all that is open inside it. -/
def endTag (b : Builder) (locator : Locator) (name : String) (span : Span) :
    Except Fault Builder := do
  let range ← locator.range span
  let ⟨tree, opened, _, warnings⟩ := b
  match opened.findIdx? (·.2 = name) with
  | none =>
    let warning := .info "unmatched-end-tag" s!"</{name}> has no matching start tag" range
    pure ⟨tree, opened, none, warnings.push warning⟩
  | some k =>
    pure ⟨stopAt tree range.stop (opened.take (k + 1)), opened.drop (k + 1), none, warnings⟩

def text (b : Builder) (locator : Locator) (content : String) (span : Span) :
    Except Fault Builder := do
  match b with
  | ⟨tree, opened, none, warnings⟩ => pure ⟨tree, opened, none, warnings⟩
  | ⟨tree, opened, some id, warnings⟩ =>
    let range ← locator.range span
    let tree := tree.modify id fun node =>
      { node with textRange := some range, text := some content }
    pure ⟨tree, opened, none, warnings⟩

def token (b : Builder) (locator : Locator) (t : Token) : Except Fault Builder :=
  match t.kind with
  | .startTag name attributes selfClosing => b.startTag locator name attributes selfClosing t.span
  | .endTag name => b.endTag locator name t.span
  | .text content => b.text locator content t.span
  | .comment | .declaration => .ok { b with awaiting := none }

/-- Ends what is still open. -/
def finish (b : Builder) (stop : Position) : Tree := stopAt b.tree stop b.opened

end Builder

/-- A tree and the warnings about what it was built from. -/
structure Parsed where
  tree : Tree
  warnings : List Warning
deriving DecidableEq

/-- What there is to say about a document that is not read as markup. -/
def Parsed.empty : Parsed := ⟨Tree.empty, []⟩

/-- The warning about a defect. -/
def Locator.warning (locator : Locator) (problem : Problem) : Except Fault Warning := do
  pure (.warning problem.defect.code problem.defect.message (← locator.range problem.span))

/-- The syntax tree of `contents`. With an offset the contents are embedded in
the file at `url`, and all ranges are ranges of that file. -/
def parse (url : Path) (contents : String) (offset : Option Offset) : Except Fault Parsed := do
  let lexed := lex contents
  let locator : Locator := ⟨SourceFile.ofContent url contents, offset⟩
  let warnings ← lexed.problems.mapM locator.warning
  let b ← lexed.tokens.foldlM (Builder.token · locator) ⟨Tree.empty, [], none, warnings.toArray⟩
  let stop ← locator.position (Text.byteLength contents.toList)
  pure ⟨b.finish stop, b.warnings.toList⟩

end PageLint.Markup
