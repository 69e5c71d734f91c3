import Mathlib.Data.List.Nodup
import PageLint.Proofs.Table.Links

/-!
# Runs of table operations

A run is a list of calls on a table, any of which may name a document that is not
there. `Linked.run_spec` carries the agreement of the records through a run and says
which ids it gives out.
-/

namespace PageLint.Table

/-- A call of an operation that changes a table. -/
inductive Call where
  | insert (document : Document)
  | insertInline (container : DocumentId) (document : Document)
  | evict (id : DocumentId)
  | replace (id : DocumentId) (document : Document)

/-- The table after a call, and the id that the call gave out. A call that is
refused leaves the table as it was. -/
def perform (t : Table) : Call → Table × Option DocumentId
  | .insert document =>
    let (t, id) := t.insert document
    (t, some id)
  | .insertInline container document =>
    match t.insertInline container document with
    | .ok (t, id) => (t, some id)
    | .error _ => (t, none)
  | .evict id => ((t.evict id).2, none)
  | .replace id document =>
    match t.replace id document with
    | .ok (_, t) => (t, none)
    | .error _ => (t, none)

/-- The table after some calls, and the ids that they gave out in order. -/
def run (t : Table) : List Call → Table × List DocumentId
  | [] => (t, [])
  | call :: calls =>
    let (t, given) := t.perform call
    let (t, ids) := t.run calls
    (t, given.toList ++ ids)

@[simp] theorem run_cons (t : Table) (call : Call) (calls : List Call) :
    t.run (call :: calls) =
      (((t.perform call).1.run calls).1,
        (t.perform call).2.toList ++ ((t.perform call).1.run calls).2) := rfl

theorem run_append (t : Table) (before after : List Call) :
    t.run (before ++ after) =
      (((t.run before).1.run after).1, (t.run before).2 ++ ((t.run before).1.run after).2) := by
  induction before generalizing t with
  | nil => rfl
  | cons call calls ih => simp [ih, List.append_assoc]

/-! ## One call -/

/-- What a call leaves: records that agree, at most one new place, whose id is the
next one, and no document in a place that was empty. -/
structure Step (t t' : Table) (given : Option DocumentId) : Prop where
  linked : Linked t'
  size_eq : t'.slots.size = t.slots.size + given.toList.length
  index_eq {id : DocumentId} (h : given = some id) : id.index.toNat = t.slots.size
  contains {id : DocumentId} (hold : id.index.toNat < t.slots.size) (h : t'.contains id) :
    t.contains id

theorem Linked.step_refl {t : Table} (linked : Linked t) : Step t t none :=
  ⟨linked, rfl, nofun, fun _ h => h⟩

theorem Linked.step_insert {t : Table} (linked : Linked t) (hfit : t.slots.size < UInt32.size)
    (d : Document) : Step t (t.insert d).1 (some (t.insert d).2) where
  linked := linked.insert hfit d
  size_eq := size_slots_insert t d
  index_eq := by
    rintro id ⟨⟩
    exact index_nextId hfit
  contains := by
    intro id hold h
    obtain ⟨s, hs⟩ := contains_iff.mp h
    rw [slot?_insert t hfit, if_neg] at hs
    · exact contains_of_slot? hs
    · rw [eq_nextId_iff hfit]
      exact Nat.ne_of_lt hold

theorem Linked.step_insertInline {t t' : Table} (linked : Linked t)
    (hfit : t.slots.size < UInt32.size) {container id : DocumentId} {d : Document}
    (h : t.insertInline container d = .ok (t', id)) : Step t t' (some id) where
  linked := linked.insertInline hfit h
  size_eq := size_slots_insertInline h
  index_eq := by
    rintro other ⟨⟩
    rw [(insertInline_eq_ok h).2]
    exact index_nextId hfit
  contains := by
    intro other hold hother
    obtain ⟨s, hs⟩ := contains_iff.mp hother
    rw [slot?_insertInline hfit h, if_neg] at hs
    · split at hs
      · next hcont =>
        rw [hcont]
        exact (insertInline_eq_ok h).1
      · exact contains_of_slot? hs
    · rw [(insertInline_eq_ok h).2, eq_nextId_iff hfit]
      exact Nat.ne_of_lt hold

theorem Linked.step_evict {t : Table} (linked : Linked t) (id : DocumentId) :
    Step t (t.evict id).2 none where
  linked := linked.evict id
  size_eq := by
    unfold Table.evict
    split
    · exact size_slots_without _ _
    · rfl
  index_eq := nofun
  contains := by
    intro other _ h
    unfold Table.evict at h
    split at h
    · exact (contains_without.mp h).2
    · exact h

theorem Linked.step_replace {t t' : Table} (linked : Linked t) {id : DocumentId}
    {d old : Document} (h : t.replace id d = .ok (old, t')) : Step t t' none where
  linked := linked.replace h
  size_eq := by
    rw [(replace_eq_ok h).2, size_slots_setDocument, size_slots_without]
    rfl
  index_eq := nofun
  contains := by
    intro other _ hother
    rw [(replace_eq_ok h).2, contains_setDocument] at hother
    exact (contains_without.mp hother).2

theorem Linked.step_perform {t : Table} (linked : Linked t) (call : Call)
    (hfit : t.slots.size + (t.perform call).2.toList.length ≤ UInt32.size) :
    Step t (t.perform call).1 (t.perform call).2 := by
  cases call with
  | insert d => exact linked.step_insert hfit d
  | insertInline container d =>
    simp only [perform] at hfit ⊢
    split at hfit
    · next h => exact linked.step_insertInline hfit h
    · exact linked.step_refl
  | evict id => exact linked.step_evict id
  | replace id d =>
    simp only [perform]
    split
    · next h => exact linked.step_replace h
    · exact linked.step_refl

/-! ## A whole run -/

theorem Linked.run_spec {t : Table} (linked : Linked t) (calls : List Call)
    (hfit : t.slots.size + (t.run calls).2.length ≤ UInt32.size) :
    Linked (t.run calls).1 ∧
      (t.run calls).1.slots.size = t.slots.size + (t.run calls).2.length ∧
      (t.run calls).2.map (·.index.toNat) =
        List.range' t.slots.size (t.run calls).2.length ∧
      ∀ id : DocumentId, id.index.toNat < t.slots.size → (t.run calls).1.contains id →
        t.contains id := by
  induction calls generalizing t with
  | nil => exact ⟨linked, rfl, rfl, fun _ _ h => h⟩
  | cons call calls ih =>
    rw [run_cons] at hfit ⊢
    simp only [List.length_append] at hfit ⊢
    have step := linked.step_perform call (by omega)
    have hsize := step.size_eq
    obtain ⟨hlinked, hlen, hids, hdead⟩ := ih step.linked (by omega)
    refine ⟨hlinked, by omega, ?_, ?_⟩
    · rw [List.map_append, hids, hsize]
      cases hgiven : (t.perform call).2 with
      | none => simp
      | some id => simp [step.index_eq hgiven, List.range'_succ, Nat.add_comm 1]
    · intro id hold h
      exact step.contains hold (hdead id (by omega) h)

/-! ## What holds in every table that a run reaches -/

theorem mem_childrenOf {t : Table} (linked : Linked t) {p c : DocumentId} :
    c ∈ t.childrenOf p ↔ t.contains p ∧ t.contains c ∧ t.container? c = some p := by
  rw [childrenOf, contains_iff]
  cases hs : t.slot? p with
  | none => simp
  | some s =>
    change c ∈ s.children ↔ _
    rw [linked.mem_children hs]
    constructor
    · intro h
      obtain ⟨sc, hsc, -⟩ := container?_eq_some.mp h
      exact ⟨⟨s, rfl⟩, contains_of_slot? hsc, h⟩
    · exact fun h => h.2.2

theorem pairwise_childrenOf {t : Table} (linked : Linked t) (p : DocumentId) :
    (t.childrenOf p).Pairwise (·.index < ·.index) := by
  rw [childrenOf]
  cases hs : t.slot? p with
  | none => exact List.Pairwise.nil
  | some s => exact linked.ordered hs

theorem nodup_childrenOf {t : Table} (linked : Linked t) (p : DocumentId) :
    (t.childrenOf p).Nodup :=
  (pairwise_childrenOf linked p).imp fun hlt heq => by
    subst heq
    exact UInt32.lt_irrefl _ hlt

theorem length_ids (t : Table) : t.ids.length = t.slots.values.countP (·.isSome) := by
  have hentries : t.slots.entries.map (·.2) = t.slots.values := by
    simp [Arena.entries, Function.comp_def]
  rw [ids, entries, List.map_filterMap, List.length_filterMap_eq_countP, ← hentries,
    List.countP_map]
  congr 1
  funext e
  simp

theorem pairwise_given (calls : List Call) (few : (empty.run calls).2.length ≤ UInt32.size) :
    (empty.run calls).2.Pairwise (·.index < ·.index) := by
  obtain ⟨-, -, hids, -⟩ := linked_empty.run_spec calls (by simpa using few)
  have hmap : ((empty.run calls).2.map (·.index.toNat)).Pairwise (· < ·) := by
    rw [hids]
    exact List.pairwise_lt_range'
  exact (List.pairwise_map.mp hmap).imp UInt32.lt_iff_toNat_lt.mpr

theorem not_contains_of_gone {before after : List Call}
    (few : (empty.run (before ++ after)).2.length ≤ UInt32.size) {id : DocumentId}
    (given : id ∈ (empty.run before).2) (gone : ¬ (empty.run before).1.contains id) :
    ¬ (empty.run (before ++ after)).1.contains id := by
  rw [run_append] at few ⊢
  simp only [List.length_append] at few
  obtain ⟨hlinked, hsize, hids, -⟩ := linked_empty.run_spec before (by simp; omega)
  rw [size_slots_empty, Nat.zero_add] at hsize
  have hold : id.index.toNat < (empty.run before).1.slots.size := by
    have hmem : id.index.toNat ∈ (empty.run before).2.map (·.index.toNat) :=
      List.mem_map_of_mem given
    rw [hids, List.mem_range'_1, size_slots_empty, Nat.zero_add] at hmem
    omega
  obtain ⟨-, -, -, hdead⟩ := hlinked.run_spec after (by omega)
  exact fun h => gone (hdead id hold h)

/-- In every table that calls on the empty one reach, the count of documents, the
two records of each edge and the order of the ids agree, and the ids given out
only grow, so that an id whose document is gone stays without a document. -/
theorem links_agree_run (calls : List Call) (few : (empty.run calls).2.length < UInt32.size) :
    let t := (empty.run calls).1
    (t.size = t.slots.values.countP (·.isSome) ∧ t.size = t.entries.length) ∧
    (∀ p c, (c ∈ t.childrenOf p ↔ t.contains p ∧ t.contains c ∧ t.container? c = some p) ∧
      (c ∈ t.childrenOf p → (t.childrenOf p).count c = 1)) ∧
    (∀ c p, t.contains c → t.container? c = some p → t.contains p ∧ p.index < c.index) ∧
    (∀ p, (t.childrenOf p).Pairwise (·.index < ·.index)) ∧
    (empty.run calls).2.Pairwise (·.index < ·.index) ∧
    ∀ before after, calls = before ++ after → ∀ id ∈ (empty.run before).2,
      ¬ (empty.run before).1.contains id → ¬ t.contains id := by
  have hfew : (empty.run calls).2.length ≤ UInt32.size := Nat.le_of_lt few
  obtain ⟨linked, -, -, -⟩ := linked_empty.run_spec calls (by simpa using hfew)
  refine ⟨⟨?_, ?_⟩, fun p c => ⟨mem_childrenOf linked, ?_⟩, ?_, pairwise_childrenOf linked,
    pairwise_given calls hfew, ?_⟩
  · rw [← length_ids]
    exact linked.live_eq
  · rw [size, linked.live_eq, ids, List.length_map]
  · exact List.count_eq_one_of_mem (nodup_childrenOf linked p)
  · exact fun c p _ h => linked.container h
  · rintro before after rfl id hid hgone
    exact not_contains_of_gone hfew hid hgone

/-- Two documents inside a page, one of which is taken out and whose id then names
no document, although more are added. -/
theorem links_agree_run_evicted :
    let d := Document.bare ⟨"page.html"⟩ .html "" Markup.Tree.empty none
    let before : List Call := [.insert d, .insertInline ⟨0⟩ d, .insertInline ⟨1⟩ d, .evict ⟨1⟩]
    let after : List Call := [.insertInline ⟨1⟩ d, .insertInline ⟨0⟩ d, .replace ⟨7⟩ d]
    (empty.run (before ++ after)).2.length < UInt32.size ∧
      (empty.run (before ++ after)).1.size = 2 ∧
      ¬ (empty.run (before ++ after)).1.contains ⟨1⟩ := by
  intro d before after
  have few : (empty.run (before ++ after)).2.length < UInt32.size := by decide +kernel
  obtain ⟨⟨hsize, -⟩, -, -, -, -, hgone⟩ := links_agree_run (before ++ after) few
  refine ⟨few, ?_, ?_⟩
  · rw [hsize]
    decide +kernel
  · exact hgone before after rfl ⟨1⟩ (by decide +kernel) (by decide +kernel)

end PageLint.Table
