import PageLint.Scanner.Basic
import PageLint.Scanner.BaseUrl
import PageLint.Url
/-!
# Stylesheets of a page

A `link` element with `stylesheet` among its relations refers to a file, a
`style` element is a document inside the page.
-/

namespace PageLint.Style

/-- Whether an element links a stylesheet. -/
def isStylesheet (node : Markup.Node) : Bool :=
  match node.value? "rel" with
  | some rel =>
    (rel.toList.splitOnP Text.isMarkupSpace).any fun token =>
      Text.equalIgnoringCase (String.ofList token) "stylesheet"
  | none => false

/-- The reference of a link to a stylesheet. -/
def linked (base : Option String) (id : NodeId) (node : Markup.Node) : ScannedFeature :=
  .reference
    { type := "html-style"
      url := Url.applyBase base ((node.value? "href").getD "")
      urlRange := (node.attribute? "href").map (·.range)
      lazy := false
      node := some id }
    node.range []

/-- The document inside a style element. -/
def embedded? (id : NodeId) (node : Markup.Node) : Option ScannedFeature :=
  match node.text, node.textRange with
  | some text, some range =>
    some (.inlineDocument
      { language := .css
        contents := text
        offset := range.start.toOffset
        isModule := false
        node := some id }
      range [])
  | _, _ => none

def feature? (base : Option String) (id : NodeId) (node : Markup.Node) : Option ScannedFeature :=
  if node.kind = "link" then
    if isStylesheet node then some (linked base id node) else none
  else if node.kind = "style" then embedded? id node
  else none

def scanner : Scanner where
  name := "html-style"
  language := .html
  parse := Markup.parse
  scan document :=
    let base := document.tree.baseUrl?
    .ok ⟨document.tree.entries.filterMap fun (id, node) => feature? base id node, []⟩

end PageLint.Style
