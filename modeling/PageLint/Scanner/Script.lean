import PageLint.Scanner.Basic
import PageLint.Scanner.BaseUrl
import PageLint.Url
/-!
# Scripts of a page

A script with a `src` attribute refers to a file; `async` and `defer` make the
reference lazy, and text inside it is ignored. Any other script is a document
inside the page, unless its type says that it is not JavaScript.
-/

namespace PageLint.Script

def classicTypes : List String :=
  ["text/javascript", "application/javascript", "application/x-javascript", "text/ecmascript",
    "application/ecmascript"]

/-- Whether a script is a module, if it is JavaScript at all. -/
def isModule? (node : Markup.Node) : Option Bool :=
  match node.value? "type" with
  | none => some false
  | some type =>
    let type := Text.lower (Text.trim type)
    if type = "" || classicTypes.contains type then some false
    else if type = "module" then some true
    else none

/-- The warning about text that is ignored. -/
def ignoredContent (node : Markup.Node) : List Warning :=
  match node.text, node.textRange with
  | some text, some range =>
    if Text.isBlank text then []
    else [.info "ignored-script-content"
      "inline content of a script with a src attribute is ignored" range]
  | _, _ => []

/-- The reference of a script with a `src` attribute. -/
def external (base : Option String) (id : NodeId) (node : Markup.Node)
    (src : Markup.Attribute) : ScannedFeature :=
  .reference
    { type := "html-script"
      url := Url.applyBase base (src.value.getD "")
      urlRange := some src.range
      lazy := node.hasAttribute "async" || node.hasAttribute "defer"
      node := some id }
    node.range (ignoredContent node)

/-- The document inside a script without a `src` attribute. -/
def internal? (id : NodeId) (node : Markup.Node) : Option ScannedFeature :=
  match isModule? node, node.text, node.textRange with
  | some isModule, some text, some range =>
    some (.inlineDocument
      { language := .javaScript
        contents := text
        offset := range.start.toOffset
        isModule
        node := some id }
      range [])
  | _, _, _ => none

def feature? (base : Option String) (id : NodeId) (node : Markup.Node) : Option ScannedFeature :=
  match node.attribute? "src" with
  | some src => some (external base id node src)
  | none => internal? id node

def scanner : Scanner where
  name := "html-script"
  language := .html
  parse := Markup.parse
  scan document :=
    let base := document.tree.baseUrl?
    .ok ⟨(document.tree.ofKind "script").filterMap fun (id, node) => feature? base id node, []⟩

end PageLint.Script
