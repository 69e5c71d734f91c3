import PageLint.Arena
import PageLint.Source.Range
/-!
# Syntax trees

The elements of a page in document order, each with the element around it.
-/

namespace PageLint.Markup

/-- An attribute of an element. Its range is that of the value without quotes,
or of the name if there is no value. -/
structure Attribute where
  name : String
  value : Option String
  range : SourceRange
deriving DecidableEq, Inhabited

/-- An element from its start tag to its end tag. -/
structure Node where
  kind : String
  range : SourceRange
  attributes : List Attribute
  /-- Where the raw text of the element is. -/
  textRange : Option SourceRange
  /-- The raw text of a script or style element. -/
  text : Option String
  parent : Option NodeId
deriving DecidableEq, Inhabited

namespace Node

/-- The first attribute of a name. -/
def attribute? (node : Node) (name : String) : Option Attribute :=
  node.attributes.find? (·.name = name)

/-- The value of the first attribute of a name, if it has one. -/
def value? (node : Node) (name : String) : Option String :=
  (node.attribute? name).bind (·.value)

/-- Whether there is an attribute of a name. -/
def hasAttribute (node : Node) (name : String) : Bool :=
  (node.attribute? name).isSome

end Node

/-- The elements of a page in document order. -/
structure Tree where
  nodes : Arena NodeId Node
deriving DecidableEq, Inhabited

namespace Tree

def empty : Tree := ⟨Arena.empty⟩

/-- Adds an element after all others. -/
def push (tree : Tree) (node : Node) : Tree × NodeId :=
  let (nodes, id) := tree.nodes.alloc node
  (⟨nodes⟩, id)

def get? (tree : Tree) (id : NodeId) : Option Node := tree.nodes.get? id

def modify (tree : Tree) (id : NodeId) (f : Node → Node) : Tree :=
  ⟨tree.nodes.modify id f⟩

def size (tree : Tree) : Nat := tree.nodes.size

def entries (tree : Tree) : List (NodeId × Node) := tree.nodes.entries

/-- The elements of a name. -/
def ofKind (tree : Tree) (kind : String) : List (NodeId × Node) :=
  tree.entries.filter (·.2.kind = kind)

/-- The elements directly inside another. -/
def children (tree : Tree) (parent : NodeId) : List (NodeId × Node) :=
  tree.entries.filter (·.2.parent = some parent)

end Tree

end PageLint.Markup
