import PageLint.Analyzer
import PageLint.Diagnostic.Printer
/-!
# A single page

The analysis of one page that is given as a text, together with the sources its
warnings point into.
-/

namespace PageLint

structure Page where
  table : Table
  sources : Database
  root : DocumentId

namespace Page

/-- Analyzes a page with the scanners of pages and some more. -/
def analyze (url : Path) (source : String) (mode : ResolutionMode) (more : List Scanner) :
    Except Fault Page := do
  let sources := Database.inMemory.add (SourceFile.ofContent url source)
  let analyzer : Analyzer := ⟨Analyzer.pageScanners ++ more, mode⟩
  let (table, root) ← analyzer.analyze Table.empty url .html source
  pure ⟨table, sources, root⟩

def warnings (page : Page) : List Warning := page.table.warnings

/-- The warnings about the page as they are printed. -/
def render (page : Page) (style : PrintStyle) : String :=
  Printer.renderAll ⟨page.sources.loader, style⟩ page.warnings

end Page

end PageLint
