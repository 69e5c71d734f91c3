import PageLint.Arena

/-!
# What a store holds after each operation

Every operation on an append-only store is described by the items that it leaves
under each id. Ids have 32 bits, so an id tells its place only in a store of at
most `2 ^ 32` items.
-/

namespace PageLint.Arena

variable {ι α : Type} [StoreId ι]

theorem index_idOf {k : Nat} (h : k < UInt32.size) : (StoreId.index (idOf k : ι)).toNat = k := by
  rw [idOf, StoreId.index_ofIndex]
  exact UInt32.toNat_ofNat_of_lt' h

@[simp] theorem size_alloc (a : Arena ι α) (item : α) : (a.alloc item).1.size = a.size + 1 := by
  simp [alloc, size]

theorem get?_alloc (a : Arena ι α) (item : α) (id : ι) :
    (a.alloc item).1.get? id =
      if (StoreId.index id).toNat = a.size then some item else a.get? id :=
  Array.getElem?_push

@[simp] theorem size_modify (a : Arena ι α) (id : ι) (f : α → α) :
    (a.modify id f).size = a.size := by
  simp [modify, size]

theorem get?_modify (a : Arena ι α) (id other : ι) (f : α → α) :
    (a.modify id f).get? other =
      if StoreId.index id = StoreId.index other then (a.get? other).map f else a.get? other := by
  simp only [modify, get?, Array.getElem?_modify, UInt32.toNat_inj]

@[simp] theorem size_mapEntries (a : Arena ι α) (f : ι → α → α) :
    (a.mapEntries f).size = a.size := by
  simp [mapEntries, size]

theorem get?_mapEntries (a : Arena ι α) (f : ι → α → α) (id : ι) :
    (a.mapEntries f).get? id = (a.get? id).map (f (idOf (StoreId.index id).toNat)) := by
  simp [mapEntries, get?]

/-- What is stored after a change of all items is stored before it just as well. -/
theorem alloc_mapEntries (a : Arena ι α) (f : α → α) (item : α) :
    (a.mapEntries fun _ => f).alloc (f item) =
      ((a.alloc item).1.mapEntries fun _ => f, (a.alloc item).2) := by
  simp [alloc, mapEntries, size]

theorem modify_mapEntries (a : Arena ι α) (id : ι) {f g h : α → α}
    (comm : ∀ item, h (f item) = f (g item)) :
    (a.mapEntries fun _ => f).modify id h = (a.modify id g).mapEntries fun _ => f := by
  have hitems : (a.items.mapIdx fun _ => f).modify (StoreId.index id).toNat h =
      (a.items.modify (StoreId.index id).toNat g).mapIdx fun _ => f := by
    apply Array.ext_getElem?
    intro k
    simp only [Array.getElem?_modify, Array.getElem?_mapIdx]
    split
    · simp only [Option.map_map, Function.comp_def, comm]
    · rfl
  exact congrArg Arena.mk hitems

theorem index_lt_size_of_get? {a : Arena ι α} {id : ι} {item : α} (h : a.get? id = some item) :
    (StoreId.index id).toNat < a.size := by
  obtain ⟨hlt, -⟩ := Array.getElem?_eq_some_iff.mp h
  exact hlt

/-! ## The items with their ids -/

theorem mem_entries {a : Arena ι α} {id : ι} {item : α} :
    (id, item) ∈ a.entries ↔ ∃ k : Nat, a.items[k]? = some item ∧ id = idOf k := by
  constructor
  · intro h
    obtain ⟨⟨x, k⟩, hx, heq⟩ := List.mem_map.mp h
    obtain ⟨rfl, rfl⟩ := Prod.mk.inj heq
    exact ⟨k, by simpa [values] using List.mem_zipIdx_iff_getElem?.mp hx, rfl⟩
  · rintro ⟨k, hk, rfl⟩
    refine List.mem_map.mpr ⟨(item, k), List.mem_zipIdx_iff_getElem?.mpr ?_, rfl⟩
    simpa [values] using hk

theorem mem_values_of_mem_entries {a : Arena ι α} {id : ι} {item : α} (h : (id, item) ∈ a.entries) :
    item ∈ a.values := by
  obtain ⟨k, hk, -⟩ := mem_entries.mp h
  exact List.mem_of_getElem? (by simpa [values] using hk)

theorem values_alloc (a : Arena ι α) (item : α) :
    (a.alloc item).1.values = a.values ++ [item] := by
  simp [values, alloc]

theorem values_mapEntries (a : Arena ι α) (f : α → α) :
    (a.mapEntries fun _ => f).values = a.values.map f := by
  apply List.ext_getElem?
  intro i
  simp [values, mapEntries]

theorem mem_values_modify {a : Arena ι α} {id : ι} {f : α → α} {item : α}
    (h : item ∈ (a.modify id f).values) : item ∈ a.values ∨ ∃ old ∈ a.values, item = f old := by
  obtain ⟨k, hk⟩ := List.mem_iff_getElem?.mp h
  simp only [values, modify, Array.getElem?_toList, Array.getElem?_modify] at hk
  split at hk
  · obtain ⟨old, hold, rfl⟩ := Option.map_eq_some_iff.mp hk
    exact Or.inr ⟨old, List.mem_of_getElem? (by simpa [values] using hold), rfl⟩
  · exact Or.inl (List.mem_of_getElem? (by simpa [values] using hk))

theorem entries_alloc (a : Arena ι α) (item : α) :
    (a.alloc item).1.entries = a.entries ++ [(idOf a.size, item)] := by
  simp [entries, values, alloc, size, List.zipIdx_append]

theorem entries_mapEntries (a : Arena ι α) (f : ι → α → α) :
    (a.mapEntries f).entries = a.entries.map fun e => (e.1, f e.1 e.2) := by
  apply List.ext_getElem?
  intro i
  simp [entries, values, mapEntries]
  cases a.items[i]? <;> rfl

theorem filterMap_entries_modify {β : Type} (a : Arena ι α) (id : ι) (f : α → α)
    (g : ι × α → Option β) (hg : ∀ k item, g (k, f item) = g (k, item)) :
    (a.modify id f).entries.filterMap g = a.entries.filterMap g := by
  have hmap : (a.modify id f).entries.map g = a.entries.map g := by
    apply List.ext_getElem?
    intro i
    simp only [entries, values, modify, List.map_map, List.getElem?_map, List.getElem?_zipIdx,
      Array.getElem?_toList, Array.getElem?_modify]
    split
    · cases a.items[i]? with
      | none => rfl
      | some item => exact congrArg some (hg _ item)
    · rfl
  have h := congrArg (List.filterMap fun x => x) hmap
  rw [List.filterMap_map, List.filterMap_map] at h
  exact h

theorem pairwise_entries (a : Arena ι α) (h : a.size ≤ UInt32.size) :
    a.entries.Pairwise fun e e' => StoreId.index e.1 < StoreId.index e'.1 := by
  rw [entries, List.pairwise_map, List.pairwise_iff_getElem]
  intro i j hi hj hij
  have hsize : a.values.length = a.size := Array.length_toList
  simp only [List.length_zipIdx, hsize] at hi hj
  simp only [List.getElem_zipIdx, Nat.zero_add, UInt32.lt_iff_toNat_lt]
  rw [index_idOf (by omega), index_idOf (by omega)]
  exact hij

end PageLint.Arena
