import PageLint.Document.Basic
/-!
# The document table

All documents of an analysis. A document may be inside another, its container;
each document knows its container and, in the order they were added, the
documents directly inside it. Evicting a document takes all that is inside it
away as well. An id is never given out twice.
-/

namespace PageLint

/-- A document in its place. -/
structure Slot where
  document : Document
  container : Option DocumentId
  children : List DocumentId
deriving DecidableEq

/-- The documents of an analysis. Evicted documents leave an empty slot. -/
structure Table where
  slots : Arena DocumentId (Option Slot)
  /-- The number of slots that are not empty. -/
  live : Nat
deriving DecidableEq

namespace Table

def empty : Table := ⟨Arena.empty, 0⟩

instance : Inhabited Table := ⟨empty⟩

/-- The place of a document that is in the table. -/
def slot? (t : Table) (id : DocumentId) : Option Slot := (t.slots.get? id).join

def get? (t : Table) (id : DocumentId) : Option Document := (t.slot? id).map (·.document)

def contains (t : Table) (id : DocumentId) : Bool := (t.slot? id).isSome

/-- The documents directly inside another. -/
def childrenOf (t : Table) (id : DocumentId) : List DocumentId :=
  ((t.slot? id).map (·.children)).getD []

/-- The document that another one says it is in. -/
def containerOf (t : Table) (id : DocumentId) : Option Document :=
  ((t.get? id).bind Document.backreference?).bind t.get?

def size (t : Table) : Nat := t.live

/-- The documents with their ids, in the order of the ids. -/
def entries (t : Table) : List (DocumentId × Document) :=
  t.slots.entries.filterMap fun (id, slot) => slot.map fun s => (id, s.document)

/-- Adds a document that is in no other. -/
def insert (t : Table) (document : Document) : Table × DocumentId :=
  let ⟨slots, live⟩ := t
  let (slots, id) := slots.alloc (some ⟨document, none, []⟩)
  (⟨slots, live + 1⟩, id)

/-- Adds a document inside another. -/
def insertInline (t : Table) (container : DocumentId) (document : Document) :
    Except Fault (Table × DocumentId) :=
  if t.contains container then
    let ⟨slots, live⟩ := t
    let (slots, id) := slots.alloc (some ⟨document, some container, []⟩)
    let slots := slots.modify container (·.map fun s => { s with children := s.children ++ [id] })
    .ok (⟨slots, live + 1⟩, id)
  else .error (.noSuchDocument .addInline container)

/-- Whether a place is that of a document directly inside one of some others. -/
def Slot.isInside (s : Slot) (ids : List DocumentId) : Bool :=
  s.container.any ids.contains

/-- A document and all that is inside it, directly or not. Containers come before
what they contain, so one pass in the order of the ids finds them all. -/
def subtree (t : Table) (id : DocumentId) : List DocumentId :=
  t.slots.entries.foldl (fun found (k, slot) =>
    match slot with
    | some s => if k = id || Slot.isInside s found then found ++ [k] else found
    | none => found) []

/-- The table without some of its documents. -/
def without (t : Table) (gone : List DocumentId) : Table where
  slots := t.slots.mapEntries fun id slot =>
    if gone.contains id then none
    else slot.map fun s => { s with children := s.children.filter (!gone.contains ·) }
  live := t.live - gone.length

/-- Takes a document and all that is inside it out of the table. -/
def evict (t : Table) (id : DocumentId) : Option Document × Table :=
  match t.get? id with
  | some document => (some document, t.without (t.subtree id))
  | none => (none, t)

/-- Puts a document in the place of another, without what was inside that. Gives
the old document. -/
def replace (t : Table) (id : DocumentId) (document : Document) :
    Except Fault (Document × Table) :=
  match t.get? id with
  | some old =>
    let t := t.without ((t.subtree id).filter (· ≠ id))
    .ok (old, { t with slots := t.slots.modify id (·.map fun s => { s with document }) })
  | none => .error (.noSuchDocument .replace id)

/-! ## Queries over all documents -/

/-- The features of a kind, each with its document. -/
def featuresOfKind (t : Table) (kind : FeatureKind) : List (DocumentId × Feature) :=
  t.entries.flatMap fun (id, d) => (d.featuresOfKind kind).map (id, ·)

/-- The features that can be looked up by a name, each with its document. -/
def featuresNamed (t : Table) (name : String) : List (DocumentId × Feature) :=
  t.entries.flatMap fun (id, d) => (d.featuresNamed name).map (id, ·)

def warnings (t : Table) : List Warning := t.entries.flatMap (·.2.allWarnings)

def errorCount (t : Table) : Nat := t.warnings.countP (·.isError)

end Table

end PageLint
