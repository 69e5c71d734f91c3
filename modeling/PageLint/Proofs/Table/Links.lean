import Mathlib.Logic.Relation
import PageLint.Proofs.Table.Subtree

/-!
# Links between containers and contents

Every edge from a container to a document inside it is recorded twice: by the
document and by the container. `Linked` says that the two records agree, that the
documents form a forest in which containers have smaller ids, and that the count
of documents is right. Every operation keeps it.
-/

namespace PageLint.Table

/-- The records of a table agree with each other. -/
structure Linked (t : Table) : Prop where
  /-- The ids that were given out fit their 32 bits. -/
  fits : t.slots.size ≤ UInt32.size
  live_eq : t.live = t.ids.length
  mem_children {p : DocumentId} {s : Slot} (h : t.slot? p = some s) (c : DocumentId) :
    c ∈ s.children ↔ t.container? c = some p
  ordered {p : DocumentId} {s : Slot} (h : t.slot? p = some s) :
    s.children.Pairwise (·.index < ·.index)
  container {c p : DocumentId} (h : t.container? c = some p) : t.contains p ∧ p.index < c.index

theorem container?_eq_some {t : Table} {c p : DocumentId} :
    t.container? c = some p ↔ ∃ s, t.slot? c = some s ∧ s.container = some p :=
  Option.bind_eq_some_iff

theorem linked_empty : Linked empty where
  fits := Nat.zero_le _
  live_eq := rfl
  mem_children h := by cases h
  ordered h := by cases h
  container h := by cases h

/-! ## Adding a document -/

theorem container?_insert (t : Table) (hfit : t.slots.size < UInt32.size) (d : Document)
    (id : DocumentId) : (t.insert d).1.container? id = t.container? id := by
  simp only [container?, slot?_insert t hfit]
  split
  · next h =>
    cases hs : t.slot? id with
    | none => rfl
    | some s => exact absurd h (ne_nextId_of_slot? hfit hs)
  · rfl

theorem contains_insert_of_contains {t : Table} (hfit : t.slots.size < UInt32.size) (d : Document)
    {id : DocumentId} (h : t.contains id) : (t.insert d).1.contains id := by
  obtain ⟨s, hs⟩ := contains_iff.mp h
  apply contains_of_slot? (s := s)
  rw [slot?_insert t hfit, if_neg (ne_nextId_of_slot? hfit hs), hs]

theorem Linked.insert {t : Table} (linked : Linked t) (hfit : t.slots.size < UInt32.size)
    (d : Document) : Linked (t.insert d).1 where
  fits := by
    rw [size_slots_insert]
    exact hfit
  live_eq := by
    rw [live_insert, linked.live_eq, ids, ids, entries_insert]
    simp
  mem_children := by
    intro p s h c
    rw [slot?_insert t hfit] at h
    rw [container?_insert t hfit]
    split at h
    · next hp =>
      -- nothing points to an id that was not given out before
      cases h
      refine ⟨fun hc => absurd hc List.not_mem_nil, fun hc => ?_⟩
      obtain ⟨s, hs⟩ := contains_iff.mp (linked.container hc).1
      exact absurd hp (ne_nextId_of_slot? hfit hs)
    · exact linked.mem_children h c
  ordered := by
    intro p s h
    rw [slot?_insert t hfit] at h
    split at h
    · cases h
      exact List.Pairwise.nil
    · exact linked.ordered h
  container := by
    intro c p h
    rw [container?_insert t hfit] at h
    exact ⟨contains_insert_of_contains hfit d (linked.container h).1, (linked.container h).2⟩

section

variable {t t' : Table} {container id : DocumentId} {d : Document}
  (hfit : t.slots.size < UInt32.size) (h : t.insertInline container d = .ok (t', id))

include hfit h

theorem container?_insertInline (other : DocumentId) :
    t'.container? other = if other = id then some container else t.container? other := by
  simp only [container?, slot?_insertInline hfit h]
  split
  · rfl
  · split
    · next hcont =>
      subst hcont
      cases t.slot? other with
      | none => rfl
      | some s => rfl
    · rfl

theorem contains_insertInline_of_contains {other : DocumentId} (hc : t.contains other) :
    t'.contains other := by
  obtain ⟨s, hs⟩ := contains_iff.mp hc
  rw [contains_iff]
  simp only [slot?_insertInline hfit h]
  split
  · exact ⟨_, rfl⟩
  · split
    · next hcont =>
      subst hcont
      exact ⟨Slot.addChild s id, by rw [hs]; rfl⟩
    · exact ⟨s, hs⟩

theorem Linked.insertInline (linked : Linked t) : Linked t' := by
  obtain ⟨hlive, hid⟩ := insertInline_eq_ok h
  have hindex : id.index.toNat = t.slots.size := hid ▸ index_nextId hfit
  have hbefore : ∀ {other s}, t.slot? other = some s → other.index < id.index := by
    intro other s hs
    rw [UInt32.lt_iff_toNat_lt, hindex]
    exact index_lt_of_slot? hs
  have hfresh : ∀ {p}, t.container? id ≠ some p := by
    intro p hp
    obtain ⟨s, hs, -⟩ := container?_eq_some.mp hp
    exact UInt32.lt_irrefl _ (hbefore hs)
  refine ⟨?_, ?_, ?_, ?_, ?_⟩
  · rw [size_slots_insertInline h]
    exact hfit
  · rw [live_insertInline h, linked.live_eq, ids, ids, entries_insertInline h]
    simp
  · intro p s hs c
    rw [slot?_insertInline hfit h] at hs
    rw [container?_insertInline hfit h]
    split at hs
    · next hp =>
      cases hs
      subst hp
      refine ⟨fun hc => absurd hc List.not_mem_nil, fun hc => ?_⟩
      split at hc
      · obtain ⟨s, hs⟩ := contains_iff.mp hlive
        cases hc
        exact absurd (hbefore hs) (UInt32.lt_irrefl _)
      · obtain ⟨s, hs⟩ := contains_iff.mp (linked.container hc).1
        exact absurd (hbefore hs) (UInt32.lt_irrefl _)
    · split at hs
      · next hp =>
        subst hp
        obtain ⟨s', hs', rfl⟩ := Option.map_eq_some_iff.mp hs
        rw [Slot.addChild, List.mem_append, List.mem_singleton, linked.mem_children hs']
        by_cases hc : c = id
        · simp [hc]
        · simp [hc]
      · next hp =>
        rw [linked.mem_children hs]
        by_cases hc : c = id
        · subst hc
          rw [if_pos rfl]
          exact ⟨fun hc => absurd hc hfresh, fun hc => absurd (Option.some.inj hc).symm hp⟩
        · rw [if_neg hc]
  · intro p s hs
    rw [slot?_insertInline hfit h] at hs
    split at hs
    · cases hs
      exact List.Pairwise.nil
    · split at hs
      · obtain ⟨s', hs', rfl⟩ := Option.map_eq_some_iff.mp hs
        refine List.pairwise_append.mpr ⟨linked.ordered hs', List.pairwise_singleton _ _, ?_⟩
        intro c hc c' hc'
        rw [List.mem_singleton.mp hc']
        obtain ⟨sc, hsc, -⟩ := container?_eq_some.mp ((linked.mem_children hs' c).mp hc)
        exact hbefore hsc
      · exact linked.ordered hs
  · intro c p hp
    rw [container?_insertInline hfit h] at hp
    split at hp
    · next hc =>
      cases hp
      subst hc
      obtain ⟨s, hs⟩ := contains_iff.mp hlive
      exact ⟨contains_insertInline_of_contains hfit h hlive, hbefore hs⟩
    · exact ⟨contains_insertInline_of_contains hfit h (linked.container hp).1,
        (linked.container hp).2⟩

end

/-! ## Taking documents out -/

theorem container?_without (t : Table) (gone : List DocumentId) (id : DocumentId) :
    (t.without gone).container? id = if id ∈ gone then none else t.container? id := by
  simp only [container?, slot?_without]
  split
  · rfl
  · cases t.slot? id with
    | none => rfl
    | some s => rfl

theorem contains_without {t : Table} {gone : List DocumentId} {id : DocumentId} :
    (t.without gone).contains id ↔ id ∉ gone ∧ t.contains id := by
  simp only [contains, slot?_without]
  by_cases h : id ∈ gone <;> simp [h]

theorem ids_without (t : Table) (gone : List DocumentId) :
    (t.without gone).ids = t.ids.filter (· ∉ gone) := by
  rw [ids, entries_without, ids, List.filter_map]
  rfl

theorem length_filter_not_mem_add_length {l gone : List DocumentId} (hl : l.Nodup)
    (hgone : gone.Nodup) (hsub : ∀ k ∈ gone, k ∈ l) :
    (l.filter (· ∉ gone)).length + gone.length = l.length := by
  have hperm : (l.filter (· ∈ gone)).Perm gone := by
    apply (List.perm_ext_iff_of_nodup (hl.filter _) hgone).mpr
    intro k
    rw [List.mem_filter, decide_eq_true_eq]
    exact ⟨fun h => h.2, fun h => ⟨hsub k h, h⟩⟩
  have hsplit := List.length_eq_countP_add_countP (fun k => decide (k ∈ gone)) (l := l)
  rw [List.countP_eq_length_filter, List.countP_eq_length_filter, hperm.length_eq] at hsplit
  simp only [decide_eq_true_eq] at hsplit
  omega

theorem Linked.nodup_ids {t : Table} (linked : Linked t) : t.ids.Nodup :=
  (pairwise_ids linked.fits).imp fun hlt heq => by
    subst heq
    exact UInt32.lt_irrefl _ hlt

/-- Taking out documents together with all that is inside them keeps the records
in agreement. -/
theorem Linked.without {t : Table} (linked : Linked t) {gone : List DocumentId}
    (nodup : gone.Nodup) (live : ∀ k ∈ gone, t.contains k)
    (closed : ∀ c p, t.container? c = some p → p ∈ gone → c ∈ gone) :
    Linked (t.without gone) where
  fits := by
    rw [size_slots_without]
    exact linked.fits
  live_eq := by
    have hlen := length_filter_not_mem_add_length linked.nodup_ids nodup
      fun k hk => (mem_ids linked.fits).mpr (live k hk)
    change t.live - gone.length = _
    rw [ids_without, linked.live_eq, ← hlen, Nat.add_sub_cancel]
  mem_children := by
    intro p s h c
    rw [slot?_without] at h
    rw [container?_without]
    split at h
    · cases h
    · next hp =>
      obtain ⟨s', hs', rfl⟩ := Option.map_eq_some_iff.mp h
      rw [List.mem_filter, decide_eq_true_eq, linked.mem_children hs']
      by_cases hc : c ∈ gone <;> simp [hc]
  ordered := by
    intro p s h
    rw [slot?_without] at h
    split at h
    · cases h
    · obtain ⟨s', hs', rfl⟩ := Option.map_eq_some_iff.mp h
      exact (linked.ordered hs').filter _
  container := by
    intro c p h
    rw [container?_without] at h
    split at h
    · cases h
    · next hc =>
      obtain ⟨hp, hlt⟩ := linked.container h
      exact ⟨contains_without.mpr ⟨fun hgone => hc (closed c p h hgone), hp⟩, hlt⟩

/-! ## Evicting and replacing a document -/

theorem container?_setDocument (t : Table) (id : DocumentId) (d : Document) (other : DocumentId) :
    (t.setDocument id d).container? other = t.container? other := by
  simp only [container?, slot?_setDocument]
  split
  · next h =>
    subst h
    cases t.slot? other with
    | none => rfl
    | some s => rfl
  · rfl

theorem contains_setDocument (t : Table) (id : DocumentId) (d : Document) (other : DocumentId) :
    (t.setDocument id d).contains other = t.contains other := by
  simp only [contains, slot?_setDocument]
  split
  · next h =>
    subst h
    exact Option.isSome_map
  · rfl

section

variable {t : Table} (linked : Linked t)

include linked

theorem Linked.nodup_subtree (root : DocumentId) : (t.subtree root).Nodup :=
  (pairwise_subtree linked.fits root).imp fun hlt heq => by
    subst heq
    exact UInt32.lt_irrefl _ hlt

theorem Linked.contains_of_mem_subtree {root k : DocumentId} (h : k ∈ t.subtree root) :
    t.contains k := by
  obtain ⟨s, hs, -⟩ := (mem_subtree linked.fits).mp h
  exact contains_of_slot? hs

theorem Linked.mem_subtree_of_container? {root c p : DocumentId} (h : t.container? c = some p)
    (hp : p ∈ t.subtree root) : c ∈ t.subtree root := by
  obtain ⟨s, hs, hcont⟩ := container?_eq_some.mp h
  exact (mem_subtree linked.fits).mpr ⟨s, hs, Or.inr ⟨p, hcont, hp, (linked.container h).2⟩⟩

theorem Linked.evict (id : DocumentId) : Linked (t.evict id).2 := by
  unfold Table.evict
  split
  · exact linked.without (linked.nodup_subtree id) (fun _ => linked.contains_of_mem_subtree)
      fun _ _ => linked.mem_subtree_of_container?
  · exact linked

theorem Linked.mem_inside_of_container? {id c p : DocumentId} (h : t.container? c = some p)
    (hp : p ∈ t.inside id) : c ∈ t.inside id := by
  obtain ⟨hmem, hne⟩ := List.mem_filter.mp hp
  refine List.mem_filter.mpr ⟨linked.mem_subtree_of_container? h hmem, ?_⟩
  rw [decide_eq_true_eq]
  rintro rfl
  exact absurd (linked.container h).2
    (UInt32.not_lt.mpr (index_le_of_mem_subtree linked.fits hmem))

/-- The documents strictly inside another can be taken out: what is left in their
place is not inside any of them. -/
theorem Linked.without_inside (id : DocumentId) :
    Linked (t.without (t.inside id)) := by
  refine linked.without ((linked.nodup_subtree id).filter _) ?_ ?_
  · intro k hk
    exact linked.contains_of_mem_subtree (List.mem_filter.mp hk).1
  · exact fun _ _ => linked.mem_inside_of_container?

theorem Linked.setDocument (id : DocumentId) (d : Document) : Linked (t.setDocument id d) := by
  have hback : ∀ {k s}, (t.setDocument id d).slot? k = some s →
      ∃ s', t.slot? k = some s' ∧ s.children = s'.children := by
    intro k s hs
    rw [slot?_setDocument] at hs
    split at hs
    · next hk =>
      subst hk
      obtain ⟨s', hs', rfl⟩ := Option.map_eq_some_iff.mp hs
      exact ⟨s', hs', rfl⟩
    · exact ⟨s, hs, rfl⟩
  refine ⟨?_, ?_, ?_, ?_, ?_⟩
  · rw [size_slots_setDocument]
    exact linked.fits
  · rw [live_setDocument, ids_setDocument, linked.live_eq]
  · intro p s hs c
    obtain ⟨s', hs', hchildren⟩ := hback hs
    rw [hchildren, container?_setDocument, linked.mem_children hs']
  · intro p s hs
    obtain ⟨s', hs', hchildren⟩ := hback hs
    rw [hchildren]
    exact linked.ordered hs'
  · intro c p h
    rw [container?_setDocument] at h
    rw [contains_setDocument]
    exact linked.container h

theorem Linked.replace {t' : Table} {id : DocumentId} {d old : Document}
    (h : t.replace id d = .ok (old, t')) : Linked t' := by
  obtain ⟨-, rfl⟩ := replace_eq_ok h
  exact (linked.without_inside id).setDocument id d

end

/-! ## Documents inside documents -/

/-- A chain of containers leads from the first document to the second. -/
def Within (t : Table) (inner outer : DocumentId) : Prop :=
  Relation.TransGen (fun c p => t.container? c = some p) inner outer

theorem within_iff {t : Table} {k w : DocumentId} :
    t.Within k w ↔ ∃ p, t.container? k = some p ∧ (p = w ∨ t.Within p w) := by
  rw [Within, Relation.TransGen.head'_iff]
  apply exists_congr
  intro p
  rw [Relation.reflTransGen_iff_eq_or_transGen, eq_comm (a := w)]
  rfl

theorem contains_of_within {t : Table} {k id : DocumentId} (h : t.Within k id) : t.contains k := by
  obtain ⟨p, hp, -⟩ := within_iff.mp h
  obtain ⟨s, hs, -⟩ := container?_eq_some.mp hp
  exact contains_of_slot? hs

theorem Linked.index_lt_of_within {t : Table} (linked : Linked t) {k id : DocumentId}
    (h : t.Within k id) : id.index < k.index := by
  induction h using Relation.TransGen.head_induction_on with
  | single hp => exact (linked.container hp).2
  | head hp _ ih => exact UInt32.lt_trans ih (linked.container hp).2

theorem Linked.mem_inside {t : Table} (linked : Linked t) {id k : DocumentId} :
    k ∈ t.inside id ↔ t.Within k id := by
  constructor
  · intro h
    induction hn : k.index.toNat using Nat.strongRecOn generalizing k with
    | ind n ih =>
      obtain ⟨hmem, hne⟩ := List.mem_filter.mp h
      obtain ⟨s, hs, heq | ⟨p, hp, hpmem, hlt⟩⟩ := (mem_subtree linked.fits).mp hmem
      · exact absurd heq (of_decide_eq_true hne)
      · have hcontainer : t.container? k = some p := container?_eq_some.mpr ⟨s, hs, hp⟩
        by_cases hpid : p = id
        · exact Relation.TransGen.single (hpid ▸ hcontainer)
        · have hwithin : t.Within p id := ih _ (hn ▸ UInt32.lt_iff_toNat_lt.mp hlt)
            (List.mem_filter.mpr ⟨hpmem, decide_eq_true hpid⟩) rfl
          exact Relation.TransGen.head hcontainer hwithin
  · intro h
    induction h using Relation.TransGen.head_induction_on with
    | single hcontainer =>
      obtain ⟨hlive, hlt⟩ := linked.container hcontainer
      obtain ⟨s, hs⟩ := contains_iff.mp hlive
      have hid : id ∈ t.subtree id := (mem_subtree linked.fits).mpr ⟨s, hs, Or.inl rfl⟩
      refine List.mem_filter.mpr ⟨linked.mem_subtree_of_container? hcontainer hid, ?_⟩
      apply decide_eq_true
      rintro rfl
      exact UInt32.lt_irrefl _ hlt
    | head hcontainer _ ih => exact linked.mem_inside_of_container? hcontainer ih

theorem not_mem_inside (t : Table) (id : DocumentId) : id ∉ t.inside id := by
  intro h
  obtain ⟨-, hne⟩ := List.mem_filter.mp h
  exact of_decide_eq_true hne rfl

/-- Nothing is left inside a document without all that is inside it. -/
theorem Linked.slot?_without_inside {t : Table} (linked : Linked t) {id : DocumentId} {s : Slot}
    (hs : t.slot? id = some s) :
    (t.without (t.inside id)).slot? id = some { s with children := [] } := by
  have hchildren : s.children.filter (· ∉ t.inside id) = [] := by
    apply List.filter_eq_nil_iff.mpr
    intro c hc
    have hwithin : t.Within c id := Relation.TransGen.single ((linked.mem_children hs c).mp hc)
    have hmem := linked.mem_inside.mpr hwithin
    simpa using hmem
  rw [slot?_without, if_neg (t.not_mem_inside id), hs, Option.map_some, hchildren]

/-- The other documents keep all that is inside them. -/
theorem Linked.slot?_without_inside_of_ne {t : Table} (linked : Linked t) {id k : DocumentId}
    (hk : k ≠ id) (h : ¬ t.Within k id) : (t.without (t.inside id)).slot? k = t.slot? k := by
  rw [slot?_without, if_neg (mt linked.mem_inside.mp h)]
  cases hs : t.slot? k with
  | none => rfl
  | some s =>
    have hchildren : s.children.filter (· ∉ t.inside id) = s.children := by
      apply List.filter_eq_self.mpr
      intro c hc
      apply decide_eq_true
      intro hmem
      obtain ⟨p, hp, hpid⟩ := within_iff.mp (linked.mem_inside.mp hmem)
      obtain rfl : k = p := Option.some.inj (((linked.mem_children hs c).mp hc).symm.trans hp)
      exact hpid.elim hk h
    rw [Option.map_some, hchildren]

end PageLint.Table
