import PageLint.Fault
/-!
# Append-only stores

Items are stored one after the other and never removed, so an id stays good and
the order of ids is the order of storing.
-/

namespace PageLint

/-- Items of type `α` numbered by ids of type `ι`. -/
structure Arena (ι α : Type) where
  items : Array α
deriving DecidableEq

namespace Arena

variable {ι α : Type} [StoreId ι]

def empty : Arena ι α := ⟨#[]⟩

instance : Inhabited (Arena ι α) := ⟨empty⟩

def size (a : Arena ι α) : Nat := a.items.size

/-- The id of the item stored at `k`. -/
def idOf (k : Nat) : ι := StoreId.ofIndex (UInt32.ofNat k)

/-- Stores an item under a new id. -/
def alloc (a : Arena ι α) (item : α) : Arena ι α × ι :=
  let id := idOf a.size
  (⟨a.items.push item⟩, id)

def get? (a : Arena ι α) (id : ι) : Option α := a.items[(StoreId.index id).toNat]?

/-- The item of an id that has to be there. -/
def fetch (a : Arena ι α) (id : ι) : Except Fault α :=
  match a.get? id with
  | some item => .ok item
  | none => .error (.outOfBounds a.size (StoreId.index id).toNat)

/-- Changes the item of an id, if it was stored. -/
def modify (a : Arena ι α) (id : ι) (f : α → α) : Arena ι α :=
  ⟨a.items.modify (StoreId.index id).toNat f⟩

def mapEntries (a : Arena ι α) (f : ι → α → α) : Arena ι α :=
  ⟨a.items.mapIdx fun k item => f (idOf k) item⟩

def values (a : Arena ι α) : List α := a.items.toList

/-- The items with their ids, in order of storing. -/
def entries (a : Arena ι α) : List (ι × α) :=
  a.values.zipIdx.map fun (item, k) => (idOf k, item)

end Arena

end PageLint
