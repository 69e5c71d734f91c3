import PageLint.Proofs.Arena
import PageLint.Proofs.Markup.Located
import PageLint.Proofs.Markup.Verbatim

/-!
# The raw text of elements

Every element of a page has its range in the file of the page, and its raw text, if
it has one, is what stands there.
-/

namespace PageLint.Markup

/-- The element is one of a file: it has its range there, and its raw text stands
where the range of the text is. -/
structure Node.Of (file : SourceFile) (node : Node) : Prop where
  range_file : node.range.file = file.path
  text {text : String} {range : SourceRange} (htext : node.text = some text)
    (hrange : node.textRange = some range) :
    ∃ k, Text.StandsAt file.content.toList k text.toList ∧
      range = file.rangeOf ⟨k, k + Text.byteLength text.toList⟩

/-- All elements of the tree are elements of a file. -/
def Tree.Of (file : SourceFile) (tree : Tree) : Prop := ∀ node ∈ tree.nodes.values, node.Of file

namespace Tree

variable {p : Node → Prop} {tree : Tree}

theorem forall_push (h : ∀ node ∈ tree.nodes.values, p node) {node : Node} (hnode : p node) :
    ∀ n ∈ (tree.push node).1.nodes.values, p n := by
  intro n hn
  change n ∈ (tree.nodes.alloc node).1.values at hn
  rw [Arena.values_alloc] at hn
  rcases List.mem_append.mp hn with hn | hn
  · exact h n hn
  · rwa [List.mem_singleton.mp hn]

theorem forall_modify (h : ∀ node ∈ tree.nodes.values, p node) {f : Node → Node}
    (hf : ∀ node, p node → p (f node)) (id : NodeId) :
    ∀ n ∈ (tree.modify id f).nodes.values, p n := by
  intro n hn
  rcases Arena.mem_values_modify hn with hn | ⟨old, hold, rfl⟩
  · exact h n hn
  · exact hf old (h old hold)

theorem forall_stopAt (h : ∀ node ∈ tree.nodes.values, p node) {stop : Position}
    (hstop : ∀ node, p node → p { node with range := { node.range with stop } })
    (ids : List (NodeId × String)) : ∀ n ∈ (stopAt tree stop ids).nodes.values, p n := by
  induction ids generalizing tree with
  | nil => exact h
  | cons id ids ih => exact ih (forall_modify h hstop id.1)

theorem of_empty (file : SourceFile) : Tree.empty.Of file := nofun

end Tree

theorem Node.Of.stopAt {file : SourceFile} {node : Node} (h : node.Of file) (stop : Position) :
    ({ node with range := { node.range with stop } } : Node).Of file :=
  ⟨h.range_file, h.text⟩

namespace Builder

variable {file : SourceFile} {b : Builder}

theorem tree_opening (h : b.tree.Of file) (name : String) (attributes : List RawAttribute)
    (selfClosing : Bool) (span : Span) :
    (b.opening file name attributes selfClosing span).tree.Of file :=
  Tree.forall_push h ⟨rfl, nofun⟩

theorem tree_closing (h : b.tree.Of file) (name : String) (span : Span) :
    (b.closing file name span).tree.Of file := by
  unfold closing
  split
  · exact h
  · exact Tree.forall_stopAt h (fun _ hnode => hnode.stopAt _) _

theorem tree_filling (h : b.tree.Of file) {content : String} {span : Span}
    (stands : Text.StandsAt file.content.toList span.start content.toList)
    (stop : span.stop = span.start + Text.byteLength content.toList) :
    (b.filling file content span).tree.Of file := by
  unfold filling
  split
  · exact h
  · refine Tree.forall_modify h (fun node hnode => ?_) _
    refine ⟨hnode.range_file, ?_⟩
    rintro text range ⟨⟩ ⟨⟩
    exact ⟨span.start, stands, by rw [← stop]⟩

/-- A token whose text stands in the file leaves a tree of the file. -/
theorem tree_taking (h : b.tree.Of file) {t : Token} (ht : t.Verbatim file.content.toList) :
    (b.taking file t).tree.Of file := by
  obtain ⟨kind, span⟩ := t
  cases kind with
  | startTag name attributes selfClosing => exact tree_opening h _ _ _ _
  | endTag name => exact tree_closing h _ _
  | text content => exact tree_filling h (ht content rfl).1 (ht content rfl).2
  | comment => exact h
  | declaration => exact h

theorem tree_foldl_taking {tokens : List Token}
    (ht : ∀ t ∈ tokens, t.Verbatim file.content.toList) (h : b.tree.Of file) :
    (tokens.foldl (taking file) b).tree.Of file := by
  induction tokens generalizing b with
  | nil => exact h
  | cons t tokens ih =>
    exact ih (fun t ht' => ht t (List.mem_cons_of_mem _ ht'))
      (tree_taking h (ht t List.mem_cons_self))

end Builder

/-- Parsing a page gives a tree of elements of the page. -/
theorem parse_of_page (url : Path) (contents : String) :
    ∃ parsed, parse url contents none = .ok parsed ∧
      parsed.tree.Of (SourceFile.ofContent url contents) :=
  ⟨_, parse_page url contents,
    Tree.forall_stopAt (Builder.tree_foldl_taking (verbatim_lex contents) (Tree.of_empty _))
      (fun _ hnode => hnode.stopAt _) _⟩

end PageLint.Markup
