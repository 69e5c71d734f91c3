import PageLint.Document.Table
import PageLint.Proofs.Arena

/-!
# The places of a table after each operation

Each operation on a document table is described by the places that it leaves and
by the list of documents it leaves. Nothing after this module opens the store
behind the table.
-/

namespace PageLint

namespace DocumentId

theorem storeId_index (id : DocumentId) : StoreId.index id = id.index := rfl

theorem index_inj {id other : DocumentId} : id.index = other.index ↔ id = other := by
  cases id
  cases other
  simp

@[simp] theorem idOf_index (id : DocumentId) : (Arena.idOf id.index.toNat : DocumentId) = id := by
  cases id
  simp [Arena.idOf, StoreId.ofIndex]

end DocumentId

namespace Table

/-- The document that the table records as the one around another. -/
def container? (t : Table) (id : DocumentId) : Option DocumentId :=
  (t.slot? id).bind (·.container)

/-- The ids of the documents in the table, in their order. -/
def ids (t : Table) : List DocumentId := t.entries.map (·.1)

/-- The id that the next document gets. -/
def nextId (t : Table) : DocumentId := Arena.idOf t.slots.size

@[simp] theorem size_slots_empty : empty.slots.size = 0 := rfl

theorem contains_iff {t : Table} {id : DocumentId} : t.contains id ↔ ∃ s, t.slot? id = some s :=
  Option.isSome_iff_exists

theorem contains_of_slot? {t : Table} {id : DocumentId} {s : Slot} (h : t.slot? id = some s) :
    t.contains id :=
  contains_iff.mpr ⟨s, h⟩

theorem contains_of_get? {t : Table} {id : DocumentId} {d : Document} (h : t.get? id = some d) :
    t.contains id := by
  obtain ⟨s, hs, -⟩ := Option.map_eq_some_iff.mp h
  exact contains_of_slot? hs

theorem index_lt_of_slot? {t : Table} {id : DocumentId} {s : Slot} (h : t.slot? id = some s) :
    id.index.toNat < t.slots.size := by
  have hget : t.slots.get? id = some (some s) := Option.join_eq_some_iff.mp h
  exact Arena.index_lt_size_of_get? hget

theorem index_nextId {t : Table} (h : t.slots.size < UInt32.size) :
    t.nextId.index.toNat = t.slots.size :=
  Arena.index_idOf (ι := DocumentId) h

theorem eq_nextId_iff {t : Table} (hfit : t.slots.size < UInt32.size) {id : DocumentId} :
    id = t.nextId ↔ id.index.toNat = t.slots.size := by
  rw [← index_nextId hfit, UInt32.toNat_inj, DocumentId.index_inj]

theorem ne_nextId_of_slot? {t : Table} {id : DocumentId} {s : Slot}
    (hfit : t.slots.size < UInt32.size) (h : t.slot? id = some s) : id ≠ t.nextId := by
  rintro rfl
  have hlt := index_lt_of_slot? h
  rw [index_nextId hfit] at hlt
  exact Nat.lt_irrefl _ hlt

/-! ## Adding a document -/

@[simp] theorem size_slots_insert (t : Table) (d : Document) :
    (t.insert d).1.slots.size = t.slots.size + 1 :=
  Arena.size_alloc _ _

theorem slot?_insert (t : Table) (hfit : t.slots.size < UInt32.size) (d : Document)
    (id : DocumentId) :
    (t.insert d).1.slot? id = if id = t.nextId then some ⟨d, none, []⟩ else t.slot? id := by
  change ((t.slots.alloc _).1.get? id).join = _
  simp only [Arena.get?_alloc, DocumentId.storeId_index, ← eq_nextId_iff hfit]
  split
  · exact Option.join_some
  · rfl

theorem entries_alloc (t : Table) (s : Slot) (live : Nat) :
    (⟨(t.slots.alloc (some s)).1, live⟩ : Table).entries =
      t.entries ++ [(t.nextId, s.document)] := by
  change (t.slots.alloc _).1.entries.filterMap _ = _
  rw [Arena.entries_alloc, List.filterMap_append]
  rfl

theorem entries_insert (t : Table) (d : Document) :
    (t.insert d).1.entries = t.entries ++ [(t.nextId, d)] :=
  entries_alloc t _ _

@[simp] theorem live_insert (t : Table) (d : Document) : (t.insert d).1.live = t.live + 1 := rfl

/-- The place of a container with one more document inside. -/
def Slot.addChild (s : Slot) (id : DocumentId) : Slot := { s with children := s.children ++ [id] }

theorem insertInline_of_contains {t : Table} {container : DocumentId} (d : Document)
    (h : t.contains container) :
    t.insertInline container d =
      .ok (⟨(t.slots.alloc (some ⟨d, some container, []⟩)).1.modify container
        (·.map fun s => Slot.addChild s t.nextId), t.live + 1⟩, t.nextId) :=
  if_pos h

theorem insertInline_of_not_contains {t : Table} {container : DocumentId} (d : Document)
    (h : ¬ t.contains container) :
    t.insertInline container d = .error (.noSuchDocument .addInline container) :=
  if_neg h

theorem insertInline_eq_ok {t t' : Table} {container id : DocumentId} {d : Document}
    (h : t.insertInline container d = .ok (t', id)) : t.contains container ∧ id = t.nextId := by
  by_cases hc : t.contains container
  · rw [insertInline_of_contains d hc] at h
    cases h
    exact ⟨hc, rfl⟩
  · rw [insertInline_of_not_contains d hc] at h
    cases h

theorem size_slots_insertInline {t t' : Table} {container id : DocumentId} {d : Document}
    (h : t.insertInline container d = .ok (t', id)) : t'.slots.size = t.slots.size + 1 := by
  rw [insertInline_of_contains d (insertInline_eq_ok h).1] at h
  cases h
  simp

theorem live_insertInline {t t' : Table} {container id : DocumentId} {d : Document}
    (h : t.insertInline container d = .ok (t', id)) : t'.live = t.live + 1 := by
  rw [insertInline_of_contains d (insertInline_eq_ok h).1] at h
  cases h
  rfl

theorem slot?_insertInline {t t' : Table} {container id : DocumentId} {d : Document}
    (hfit : t.slots.size < UInt32.size) (h : t.insertInline container d = .ok (t', id))
    (other : DocumentId) :
    t'.slot? other =
      if other = id then some ⟨d, some container, []⟩
      else if other = container then (t.slot? container).map (Slot.addChild · id)
      else t.slot? other := by
  obtain ⟨hc, rfl⟩ := insertInline_eq_ok h
  obtain ⟨s, hs⟩ := contains_iff.mp hc
  have hne := ne_nextId_of_slot? hfit hs
  rw [insertInline_of_contains d hc] at h
  cases h
  change (((t.slots.alloc _).1.modify container _).get? other).join = _
  rw [Arena.get?_modify, Arena.get?_alloc]
  simp only [DocumentId.storeId_index, DocumentId.index_inj, ← eq_nextId_iff hfit]
  by_cases hnew : other = t.nextId
  · subst hnew
    rw [if_neg hne, if_pos rfl, if_pos rfl, Option.join_some]
  · rw [if_neg hnew, if_neg hnew]
    by_cases hcont : other = container
    · subst hcont
      rw [if_pos rfl, if_pos rfl]
      change ((t.slots.get? other).map _).join = ((t.slots.get? other).join).map _
      cases t.slots.get? other with
      | none => rfl
      | some item => rfl
    · rw [if_neg hcont, if_neg (Ne.symm hcont)]
      rfl

theorem entries_insertInline {t t' : Table} {container id : DocumentId} {d : Document}
    (h : t.insertInline container d = .ok (t', id)) : t'.entries = t.entries ++ [(id, d)] := by
  obtain ⟨hc, rfl⟩ := insertInline_eq_ok h
  rw [insertInline_of_contains d hc] at h
  cases h
  change ((t.slots.alloc _).1.modify container _).entries.filterMap _ = _
  rw [Arena.filterMap_entries_modify]
  · exact entries_alloc t ⟨d, some container, []⟩ (t.live + 1)
  · intro k item
    cases item with
    | none => rfl
    | some s => rfl

/-! ## Taking documents out -/

@[simp] theorem size_slots_without (t : Table) (gone : List DocumentId) :
    (t.without gone).slots.size = t.slots.size :=
  Arena.size_mapEntries _ _

theorem slot?_without (t : Table) (gone : List DocumentId) (id : DocumentId) :
    (t.without gone).slot? id =
      if id ∈ gone then none
      else (t.slot? id).map fun s => { s with children := s.children.filter (· ∉ gone) } := by
  change ((t.slots.mapEntries _).get? id).join = _
  rw [Arena.get?_mapEntries, DocumentId.storeId_index, DocumentId.idOf_index]
  change _ = if id ∈ gone then none else ((t.slots.get? id).join).map _
  cases t.slots.get? id with
  | none => simp
  | some item => by_cases h : id ∈ gone <;> simp [h]

theorem entries_without (t : Table) (gone : List DocumentId) :
    (t.without gone).entries = t.entries.filter (·.1 ∉ gone) := by
  change (t.slots.mapEntries _).entries.filterMap _ = (t.slots.entries.filterMap _).filter _
  rw [Arena.entries_mapEntries, List.filterMap_map, List.filter_filterMap]
  congr 1
  funext e
  obtain ⟨id, item⟩ := e
  cases item with
  | none => by_cases h : id ∈ gone <;> simp [h]
  | some s => by_cases h : id ∈ gone <;> simp [h, Option.filter]

/-! ## Putting a document in the place of another -/

/-- The table with another document in a place. -/
def setDocument (t : Table) (id : DocumentId) (d : Document) : Table :=
  { t with slots := t.slots.modify id (·.map fun s => { s with document := d }) }

/-- The documents strictly inside another. -/
def inside (t : Table) (id : DocumentId) : List DocumentId := (t.subtree id).filter (· ≠ id)

theorem replace_of_get? {t : Table} {id : DocumentId} {old : Document} (d : Document)
    (h : t.get? id = some old) :
    t.replace id d = .ok (old, (t.without (t.inside id)).setDocument id d) := by
  unfold replace
  rw [h]
  rfl

theorem replace_eq_ok {t t' : Table} {id : DocumentId} {d old : Document}
    (h : t.replace id d = .ok (old, t')) :
    t.get? id = some old ∧ t' = (t.without (t.inside id)).setDocument id d := by
  cases hget : t.get? id with
  | none =>
    simp [replace, hget] at h
  | some d' =>
    rw [replace_of_get? d hget] at h
    cases h
    exact ⟨rfl, rfl⟩

@[simp] theorem size_slots_setDocument (t : Table) (id : DocumentId) (d : Document) :
    (t.setDocument id d).slots.size = t.slots.size :=
  Arena.size_modify _ _ _

@[simp] theorem live_setDocument (t : Table) (id : DocumentId) (d : Document) :
    (t.setDocument id d).live = t.live := rfl

theorem slot?_setDocument (t : Table) (id : DocumentId) (d : Document) (other : DocumentId) :
    (t.setDocument id d).slot? other =
      if other = id then (t.slot? id).map fun s => { s with document := d }
      else t.slot? other := by
  change ((t.slots.modify id _).get? other).join = _
  simp only [Arena.get?_modify, DocumentId.storeId_index, DocumentId.index_inj]
  by_cases h : other = id
  · subst h
    rw [if_pos rfl, if_pos rfl]
    change _ = ((t.slots.get? other).join).map _
    cases t.slots.get? other with
    | none => rfl
    | some item => rfl
  · rw [if_neg (Ne.symm h), if_neg h]
    rfl

theorem ids_modify_map (t : Table) (id : DocumentId) (f : Slot → Slot) (live : Nat) :
    (⟨t.slots.modify id (·.map f), live⟩ : Table).ids = t.ids := by
  simp only [ids, entries, List.map_filterMap]
  apply Arena.filterMap_entries_modify
  intro k item
  cases item with
  | none => rfl
  | some s => rfl

@[simp] theorem ids_setDocument (t : Table) (id : DocumentId) (d : Document) :
    (t.setDocument id d).ids = t.ids :=
  ids_modify_map t id _ t.live

end Table

end PageLint
