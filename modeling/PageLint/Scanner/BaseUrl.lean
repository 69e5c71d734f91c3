import PageLint.Markup.Tree
import PageLint.Text.Blank
/-!
# The base url of a page

The first `base` element with an `href` gives the url that relative urls of the
page start from, unless it is blank.
-/

namespace PageLint.Markup.Tree

/-- The base url that a page gives. -/
def baseUrl? (tree : Tree) : Option String :=
  ((tree.ofKind "base").findSome? (·.2.value? "href")).filter (!Text.isBlank ·)

end PageLint.Markup.Tree
