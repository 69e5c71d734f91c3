/-!
# Identifiers

Documents and syntax nodes are named by the order in which they were stored.
-/

namespace PageLint

/-- The type `ι` numbers the items of an append-only store. -/
class StoreId (ι : Type) where
  /-- The id of the item stored at `index`. -/
  ofIndex : UInt32 → ι
  /-- Where the item is stored. -/
  index : ι → UInt32
  /-- An id holds nothing but its index. -/
  index_ofIndex : ∀ i, index (ofIndex i) = i

/-- Names a document of a table. -/
structure DocumentId where
  index : UInt32
deriving DecidableEq, Inhabited

instance : StoreId DocumentId := ⟨DocumentId.mk, DocumentId.index, fun _ => rfl⟩

instance : ToString DocumentId := ⟨fun id => s!"doc#{id.index.toNat}"⟩

/-- Names a node of a syntax tree. -/
structure NodeId where
  index : UInt32
deriving DecidableEq, Inhabited

instance : StoreId NodeId := ⟨NodeId.mk, NodeId.index, fun _ => rfl⟩

instance : ToString NodeId := ⟨fun id => s!"node#{id.index.toNat}"⟩

end PageLint
