import PageLint.Proofs.Table.Operations

/-!
# The documents inside a document

The subtree of a document is found in one pass over the places in the order of
their ids. `mem_subtree` says what the pass finds: the document itself, and every
document whose container was found before it.
-/

namespace PageLint.Table

/-- The ids found so far, with that of the next place if it belongs to them. -/
def grow (root : DocumentId) (found : List DocumentId) (e : DocumentId × Option Slot) :
    List DocumentId :=
  match e.2 with
  | some s => if e.1 = root || Slot.isInside s found then found ++ [e.1] else found
  | none => found

theorem subtree_eq_foldl (t : Table) (root : DocumentId) :
    t.subtree root = t.slots.entries.foldl (grow root) [] := rfl

theorem isInside_iff {s : Slot} {found : List DocumentId} :
    Slot.isInside s found ↔ ∃ p, s.container = some p ∧ p ∈ found := by
  simp [Slot.isInside, Option.any_eq_true]

theorem mem_grow {root k : DocumentId} {found : List DocumentId}
    {e : DocumentId × Option Slot} :
    k ∈ grow root found e ↔ k ∈ found ∨ ∃ s, e = (k, some s) ∧
      (k = root ∨ ∃ p, s.container = some p ∧ p ∈ found) := by
  obtain ⟨id, slot⟩ := e
  cases slot with
  | none => simp [grow]
  | some s =>
    by_cases h : id = root ∨ ∃ p, s.container = some p ∧ p ∈ found
    · have hif : grow root found (id, some s) = found ++ [id] :=
        if_pos (by simpa [isInside_iff] using h)
      rw [hif, List.mem_append, List.mem_singleton]
      refine or_congr_right ⟨?_, ?_⟩
      · rintro rfl
        exact ⟨s, rfl, h⟩
      · rintro ⟨s', heq, -⟩
        exact (Prod.mk.inj heq).1.symm
    · have hif : grow root found (id, some s) = found := if_neg (by simpa [isInside_iff] using h)
      rw [hif]
      refine ⟨Or.inl, ?_⟩
      rintro (hk | ⟨s', heq, hs'⟩)
      · exact hk
      · cases heq
        exact absurd hs' h

theorem exists_append_foldl_grow (root : DocumentId) (es : List (DocumentId × Option Slot))
    (found : List DocumentId) :
    ∃ l, es.foldl (grow root) found = found ++ l ∧ l.Sublist (es.map (·.1)) := by
  induction es generalizing found with
  | nil => exact ⟨[], by simp⟩
  | cons e es ih =>
    obtain ⟨l, hl, hsub⟩ := ih (grow root found e)
    rw [List.foldl_cons, hl]
    have hgrow : grow root found e = found ∨ grow root found e = found ++ [e.1] := by
      unfold grow
      split
      · split
        · exact Or.inr rfl
        · exact Or.inl rfl
      · exact Or.inl rfl
    rcases hgrow with h | h
    · exact ⟨l, by rw [h], hsub.cons _⟩
    · exact ⟨e.1 :: l, by rw [h, List.append_assoc, List.singleton_append], hsub.cons_cons _⟩

theorem subset_foldl_grow {root k : DocumentId} {es : List (DocumentId × Option Slot)}
    {found : List DocumentId} (h : k ∈ found) : k ∈ es.foldl (grow root) found := by
  obtain ⟨l, hl, -⟩ := exists_append_foldl_grow root es found
  rw [hl]
  exact List.mem_append_left l h

/-- What a pass over places in the order of their ids finds. A container counts
only if it comes before what it contains. -/
theorem mem_foldl_grow (root : DocumentId) (es : List (DocumentId × Option Slot))
    (found : List DocumentId) (ordered : es.Pairwise fun e e' => e.1.index < e'.1.index)
    (before : ∀ k ∈ found, ∀ e ∈ es, k.index < e.1.index) (k : DocumentId) :
    k ∈ es.foldl (grow root) found ↔ k ∈ found ∨ ∃ s, (k, some s) ∈ es ∧
      (k = root ∨ ∃ p, s.container = some p ∧ p ∈ es.foldl (grow root) found ∧
        p.index < k.index) := by
  induction es generalizing found k with
  | nil => simp
  | cons e es ih =>
    obtain ⟨hfirst, hrest⟩ := List.pairwise_cons.mp ordered
    have hbefore : ∀ k ∈ grow root found e, ∀ e' ∈ es, k.index < e'.1.index := by
      intro k hk e' he'
      rcases mem_grow.mp hk with hk | ⟨s, rfl, -⟩
      · exact before k hk e' (List.mem_cons_of_mem _ he')
      · exact hfirst e' he'
    have hspec : ∀ k, _ := fun k => ih (grow root found e) hrest hbefore k
    rw [List.foldl_cons, hspec k]
    -- what is found from the first place on has an index past that of the first place
    have hold : ∀ p, p ∈ es.foldl (grow root) (grow root found e) → p.index < e.1.index →
        p ∈ found := by
      intro p hp hlt
      rcases (hspec p).mp hp with hp | ⟨s, hs, -⟩
      · rcases mem_grow.mp hp with hp | ⟨s, rfl, -⟩
        · exact hp
        · exact absurd hlt (UInt32.lt_irrefl _)
      · exact absurd (UInt32.lt_trans hlt (hfirst _ hs)) (UInt32.lt_irrefl _)
    constructor
    · rintro (hk | ⟨s, hs, hcase⟩)
      · rcases mem_grow.mp hk with hk | ⟨s, rfl, hcase⟩
        · exact Or.inl hk
        · refine Or.inr ⟨s, List.mem_cons_self, hcase.imp_right ?_⟩
          rintro ⟨p, hp, hmem⟩
          exact ⟨p, hp, subset_foldl_grow (mem_grow.mpr (Or.inl hmem)),
            before p hmem _ List.mem_cons_self⟩
      · exact Or.inr ⟨s, List.mem_cons_of_mem _ hs, hcase⟩
    · rintro (hk | ⟨s, hs, hcase⟩)
      · exact Or.inl (mem_grow.mpr (Or.inl hk))
      · rcases List.mem_cons.mp hs with rfl | hs
        · refine Or.inl (mem_grow.mpr (Or.inr ⟨s, rfl, hcase.imp_right ?_⟩))
          rintro ⟨p, hp, hmem, hlt⟩
          exact ⟨p, hp, hold p hmem hlt⟩
        · exact Or.inr ⟨s, hs, hcase⟩

/-! ## The subtree of a document -/

section

variable {t : Table} (fits : t.slots.size ≤ UInt32.size)

include fits

theorem mem_slots_entries {id : DocumentId} {s : Slot} :
    (id, some s) ∈ t.slots.entries ↔ t.slot? id = some s := by
  rw [Arena.mem_entries]
  constructor
  · rintro ⟨k, hk, rfl⟩
    have hlt : k < t.slots.size := (Array.getElem?_eq_some_iff.mp hk).1
    have hindex := Arena.index_idOf (ι := DocumentId) (Nat.lt_of_lt_of_le hlt fits)
    have hget : t.slots.get? (Arena.idOf k) = some (some s) := by
      rw [Arena.get?, hindex]
      exact hk
    exact Option.join_eq_some_iff.mpr hget
  · intro h
    exact ⟨id.index.toNat, Option.join_eq_some_iff.mp h, (DocumentId.idOf_index id).symm⟩

theorem mem_ids {id : DocumentId} : id ∈ t.ids ↔ t.contains id := by
  rw [contains_iff, ids, List.mem_map]
  constructor
  · rintro ⟨⟨k, d⟩, hd, rfl⟩
    obtain ⟨⟨k', item⟩, hmem, heq⟩ := List.mem_filterMap.mp hd
    obtain ⟨s, rfl, hs⟩ := Option.map_eq_some_iff.mp heq
    cases hs
    exact ⟨s, (mem_slots_entries fits).mp hmem⟩
  · rintro ⟨s, hs⟩
    exact ⟨(id, s.document),
      List.mem_filterMap.mpr ⟨(id, some s), (mem_slots_entries fits).mpr hs, rfl⟩, rfl⟩

theorem pairwise_ids : t.ids.Pairwise (·.index < ·.index) := by
  rw [ids, List.pairwise_map]
  apply (Arena.pairwise_entries t.slots fits).filterMap
  rintro ⟨k, item⟩ ⟨k', item'⟩ hlt b hb b' hb'
  obtain ⟨s, -, rfl⟩ := Option.map_eq_some_iff.mp hb
  obtain ⟨s', -, rfl⟩ := Option.map_eq_some_iff.mp hb'
  exact hlt

theorem mem_subtree {root k : DocumentId} :
    k ∈ t.subtree root ↔ ∃ s, t.slot? k = some s ∧
      (k = root ∨ ∃ p, s.container = some p ∧ p ∈ t.subtree root ∧ p.index < k.index) := by
  rw [subtree_eq_foldl, mem_foldl_grow root _ [] (Arena.pairwise_entries t.slots fits) (by simp)]
  simp [mem_slots_entries fits]

theorem pairwise_subtree (root : DocumentId) : (t.subtree root).Pairwise (·.index < ·.index) := by
  obtain ⟨l, hl, hsub⟩ := exists_append_foldl_grow root t.slots.entries []
  rw [subtree_eq_foldl, hl, List.nil_append]
  have hall : (t.slots.entries.map (·.1)).Pairwise (·.index < ·.index) :=
    List.Pairwise.map _ (fun _ _ h => h) (Arena.pairwise_entries t.slots fits)
  exact hall.sublist hsub

theorem index_le_of_mem_subtree {root k : DocumentId} (h : k ∈ t.subtree root) :
    root.index ≤ k.index := by
  induction hn : k.index.toNat using Nat.strongRecOn generalizing k with
  | ind n ih =>
    obtain ⟨s, -, rfl | ⟨p, -, hp, hlt⟩⟩ := (mem_subtree fits).mp h
    · exact UInt32.le_refl _
    · exact UInt32.le_trans (ih _ (hn ▸ UInt32.lt_iff_toNat_lt.mp hlt) hp rfl)
        (UInt32.le_of_lt hlt)

end

end PageLint.Table
