import Mathlib.Logic.Relation
import PageLint.Proofs.Analysis.Nesting
import PageLint.Proofs.Table.Links

/-!
# Sessions

A session is a list of calls of an analyzer on a table. Each call changes the table one
document at a time; `Step` says how. What every step keeps holds in all tables that a
session reaches, as long as the ids fit their 32 bits.
-/

namespace PageLint

namespace Table

theorem evict_cases (t : Table) (id : DocumentId) :
    (t.evict id).2 = t.without (t.subtree id) ∨ (t.evict id).2 = t := by
  unfold evict
  split
  · exact Or.inl rfl
  · exact Or.inr rfl

theorem size_slots_evict (t : Table) (id : DocumentId) :
    (t.evict id).2.slots.size = t.slots.size := by
  rcases t.evict_cases id with h | h
  · rw [h, size_slots_without]
  · rw [h]

theorem get?_without (t : Table) (gone : List DocumentId) (id : DocumentId) :
    (t.without gone).get? id = if id ∈ gone then none else t.get? id := by
  rw [get?, slot?_without]
  split
  · rfl
  · rw [Option.map_map]
    rfl

theorem get?_insertInline_of_get? {t t' : Table} {container id p : DocumentId} {d q : Document}
    (h : t.insertInline container d = .ok (t', id)) (hq : t.get? p = some q) :
    t'.get? p = some q := by
  obtain ⟨s, hs, -⟩ := Option.map_eq_some_iff.mp hq
  rw [get?_insertInline h, if_neg (Nat.ne_of_lt (index_lt_of_slot? hs))]
  exact hq

end Table

namespace Analyzer

variable {a : Analyzer}

/-! ## Calls by their journals -/

theorem analyze_eq_ok {t t' : Table} {url : Path} {language : Language} {contents : String}
    {id : DocumentId} : a.analyze t url language contents = .ok (t', id) ↔
      ∃ j, a.journal url language contents none = .ok j ∧ id = t.nextId ∧
        a.addInline nestingLimit (t.insert (j.document none)).1 t.nextId j.inner = .ok t' := by
  have hbuild := a.build_eq url language contents none none
  change a.build url language contents none [] = _ at hbuild
  rw [analyze, hbuild, bind_eq_ok_iff]
  constructor
  · rintro ⟨d, hd, h⟩
    obtain ⟨j, hj, rfl⟩ := map_eq_ok_iff.mp hd
    obtain ⟨t'', ht'', h⟩ := bind_eq_ok_iff.mp h
    cases h
    rw [Journal.inlineDocuments_document] at ht''
    exact ⟨j, hj, rfl, ht''⟩
  · rintro ⟨j, hj, rfl, h⟩
    refine ⟨j.document none, map_eq_ok_iff.mpr ⟨j, hj, rfl⟩, bind_eq_ok_iff.mpr ⟨t', ?_, rfl⟩⟩
    rw [Journal.inlineDocuments_document]
    exact h

theorem reanalyze_of_get?_eq_none {t : Table} {id : DocumentId} (h : t.get? id = none)
    (contents : String) : a.reanalyze t id contents = .error (.noSuchDocument .reanalyze id) := by
  rw [reanalyze, h]

/-- The table with a document in the place of another, and nothing inside it. -/
def emptied (t : Table) (id : DocumentId) (d : Document) : Table :=
  (t.without (t.inside id)).setDocument id d

theorem size_slots_emptied (t : Table) (id : DocumentId) (d : Document) :
    (emptied t id d).slots.size = t.slots.size := by
  rw [emptied, Table.size_slots_setDocument, Table.size_slots_without]

theorem reanalyze_eq_ok {t t' : Table} {id : DocumentId} {old : Document}
    (hold : t.get? id = some old) {contents : String} : a.reanalyze t id contents = .ok t' ↔
      ∃ j, a.journal old.url old.language contents none = .ok j ∧
        a.addInline nestingLimit (emptied t id (j.document none)) id j.inner = .ok t' := by
  have hbuild := a.build_eq old.url old.language contents none none
  change a.build old.url old.language contents none [] = _ at hbuild
  rw [reanalyze, hold]
  simp only
  rw [hbuild, bind_eq_ok_iff]
  constructor
  · rintro ⟨d, hd, h⟩
    obtain ⟨j, hj, rfl⟩ := map_eq_ok_iff.mp hd
    rw [Table.replace_of_get? _ hold, Journal.inlineDocuments_document] at h
    exact ⟨j, hj, h⟩
  · rintro ⟨j, hj, h⟩
    refine ⟨j.document none, map_eq_ok_iff.mpr ⟨j, hj, rfl⟩, ?_⟩
    rw [Table.replace_of_get? _ hold, Journal.inlineDocuments_document]
    exact h

theorem addChild_eq_ok {depth : Nat} {container : DocumentId} {t t' : Table}
    {child : InlineDocument} {outer : Document} (houter : t.get? container = some outer) :
    a.addChild depth container t child = .ok t' ↔
      ∃ j t₁ id, a.journal outer.url child.language child.contents (some child.offset) = .ok j ∧
        t.insertInline container (j.document (some container)) = .ok (t₁, id) ∧
          a.addInline depth t₁ id j.inner = .ok t' := by
  have hbuild := a.build_eq outer.url child.language child.contents (some child.offset)
    (some container)
  change a.build _ _ _ _ [.backreference container] = _ at hbuild
  rw [addChild, houter]
  simp only
  rw [hbuild, bind_eq_ok_iff]
  constructor
  · rintro ⟨d, hd, h⟩
    obtain ⟨j, hj, rfl⟩ := map_eq_ok_iff.mp hd
    obtain ⟨⟨t₁, id⟩, hinsert, h⟩ := bind_eq_ok_iff.mp h
    rw [Journal.inlineDocuments_document] at h
    exact ⟨j, t₁, id, hj, hinsert, h⟩
  · rintro ⟨j, t₁, id, hj, hinsert, h⟩
    refine ⟨j.document (some container), map_eq_ok_iff.mpr ⟨j, hj, rfl⟩,
      bind_eq_ok_iff.mpr ⟨(t₁, id), hinsert, ?_⟩⟩
    rw [Journal.inlineDocuments_document]
    exact h

/-! ## Steps -/

/-- A change of one document: what a call does to a table is a chain of these. A document may
be replaced only if it is `free`. -/
inductive Step (a : Analyzer) (free : Table → DocumentId → Prop) : Table → Table → Prop
  | insert {url : Path} {language : Language} {contents : String} {j : Journal} (t : Table)
      (hj : a.journal url language contents none = .ok j) :
      Step a free t (t.insert (j.document none)).1
  | insertInline {t t' : Table} {container id : DocumentId} {outer : Document}
      {child : InlineDocument} {j : Journal} (houter : t.get? container = some outer)
      (hj : a.journal outer.url child.language child.contents (some child.offset) = .ok j)
      (h : t.insertInline container (j.document (some container)) = .ok (t', id)) :
      Step a free t t'
  | evict (t : Table) (id : DocumentId) : Step a free t (t.evict id).2
  | replace {t : Table} {id : DocumentId} {old : Document} {contents : String} {j : Journal}
      (hfree : free t id) (hold : t.get? id = some old)
      (hj : a.journal old.url old.language contents none = .ok j) :
      Step a free t (emptied t id (j.document none))

/-- A chain of steps. -/
def Steps (a : Analyzer) (free : Table → DocumentId → Prop) : Table → Table → Prop :=
  Relation.ReflTransGen (a.Step free)

variable {free : Table → DocumentId → Prop}

theorem Step.size_le {t t' : Table} (step : a.Step free t t') : t.slots.size ≤ t'.slots.size := by
  cases step with
  | insert _ hj =>
    rw [Table.size_slots_insert]
    exact Nat.le_succ _
  | insertInline houter hj h =>
    rw [Table.size_slots_insertInline h]
    exact Nat.le_succ _
  | evict _ id => exact Nat.le_of_eq (Table.size_slots_evict t id).symm
  | replace hfree hold hj =>
    exact Nat.le_of_eq (size_slots_emptied t _ _).symm

theorem Steps.size_le {t t' : Table} (steps : a.Steps free t t') :
    t.slots.size ≤ t'.slots.size := by
  induction steps with
  | refl => exact Nat.le_refl _
  | tail _ step ih => exact Nat.le_trans ih step.size_le

/-- What every step keeps, a chain of steps keeps. -/
theorem Steps.induction {P : Table → Prop} {t t' : Table} (steps : a.Steps free t t')
    (few : t'.slots.size ≤ UInt32.size) (start : P t)
    (step : ∀ {t t'}, P t → a.Step free t t' → t'.slots.size ≤ UInt32.size → P t') : P t' := by
  induction steps with
  | refl => exact start
  | tail _ last ih => exact step (ih (Nat.le_trans last.size_le few)) last few

/-- What putting a document into another keeps, adding all that is inside one keeps. -/
theorem addInline_induction {P : Table → Prop} {depth : Nat} {t t' : Table}
    {container : DocumentId} {children : List InlineDocument}
    (h : a.addInline depth t container children = .ok t') (start : P t)
    (step : ∀ {t t' : Table} {container id : DocumentId} {outer : Document}
      {child : InlineDocument} {j : Journal}, P t → t.get? container = some outer →
      a.journal outer.url child.language child.contents (some child.offset) = .ok j →
      t.insertInline container (j.document (some container)) = .ok (t', id) → P t') : P t' := by
  -- on the depth for what is inside a child, and on the children for what is beside it
  induction depth generalizing t t' container children with
  | zero =>
    cases children with
    | nil =>
      cases h
      exact start
    | cons child children => cases h
  | succ depth ihdepth =>
    induction children generalizing t with
    | nil =>
      cases h
      exact start
    | cons child children ihchildren =>
      rw [addInline_cons] at h
      obtain ⟨t₁, hchild, h⟩ := bind_eq_ok_iff.mp h
      refine ihchildren h ?_
      cases houter : t.get? container with
      | none =>
        -- without the document around there is nothing to add to
        rw [addChild, houter] at hchild
        cases hchild
        exact start
      | some outer =>
        obtain ⟨j, t₂, id, hj, hinsert, hinner⟩ := (addChild_eq_ok houter).mp hchild
        exact ihdepth hinner (step start houter hj hinsert)

theorem steps_addInline {depth : Nat} {t t' : Table} {container : DocumentId}
    {children : List InlineDocument} (h : a.addInline depth t container children = .ok t') :
    a.Steps free t t' :=
  addInline_induction h Relation.ReflTransGen.refl fun steps houter hj hinsert =>
    steps.tail (Step.insertInline houter hj hinsert)

/-! ## Calls and sessions -/

/-- A call of an analyzer on a table. -/
inductive Call where
  | analyze (url : Path) (language : Language) (contents : String)
  | reanalyze (id : DocumentId) (contents : String)
  | evict (id : DocumentId)

/-- What a call gives. -/
def perform (a : Analyzer) (t : Table) : Call → Except Fault Table
  | .analyze url language contents => (a.analyze t url language contents).map (·.1)
  | .reanalyze id contents => a.reanalyze t id contents
  | .evict id => .ok (t.evict id).2

/-- The table after a call; a call that fails leaves it as it was. -/
def after (a : Analyzer) (t : Table) (call : Call) : Table :=
  match a.perform t call with
  | .ok t' => t'
  | .error _ => t

/-- The table after a session. -/
def session (a : Analyzer) (t : Table) (calls : List Call) : Table := calls.foldl a.after t

/-- The call puts nothing in the place of a document that is not `free`. -/
def Call.Respects (free : Table → DocumentId → Prop) (t : Table) : Call → Prop
  | .reanalyze id _ => free t id
  | _ => True

/-- All calls of a session replace only what is `free` when they are made. -/
def Respects (a : Analyzer) (free : Table → DocumentId → Prop) : Table → List Call → Prop
  | _, [] => True
  | t, call :: calls => call.Respects free t ∧ a.Respects free (a.after t call) calls

theorem steps_after {t : Table} {call : Call} (respects : call.Respects free t) :
    a.Steps free t (a.after t call) := by
  unfold after
  split
  · next t' h =>
    cases call with
    | analyze url language contents =>
      obtain ⟨⟨t'', id⟩, hanalyze, rfl⟩ := map_eq_ok_iff.mp h
      obtain ⟨j, hj, -, hadd⟩ := analyze_eq_ok.mp hanalyze
      exact Relation.ReflTransGen.head (Step.insert t hj) (steps_addInline hadd)
    | reanalyze id contents =>
      cases hold : t.get? id with
      | none =>
        rw [perform, reanalyze_of_get?_eq_none hold] at h
        cases h
      | some old =>
        obtain ⟨j, hj, h⟩ := (reanalyze_eq_ok hold).mp h
        exact Relation.ReflTransGen.head (Step.replace respects hold hj) (steps_addInline h)
    | evict id =>
      cases h
      exact Relation.ReflTransGen.single (Step.evict t id)
  · exact Relation.ReflTransGen.refl

theorem steps_session {t : Table} {calls : List Call} (respects : a.Respects free t calls) :
    a.Steps free t (a.session t calls) := by
  induction calls generalizing t with
  | nil => exact Relation.ReflTransGen.refl
  | cons call calls ih => exact (steps_after respects.1).trans (ih respects.2)

theorem respects_of_forall (h : ∀ t id, free t id) (t : Table) (calls : List Call) :
    a.Respects free t calls := by
  induction calls generalizing t with
  | nil => trivial
  | cons call calls ih =>
    refine ⟨?_, ih _⟩
    cases call with
    | reanalyze id contents => exact h t id
    | analyze url language contents => trivial
    | evict id => trivial

/-! ## Records that agree -/

theorem Step.linked {t t' : Table} (step : a.Step free t t') (few : t'.slots.size ≤ UInt32.size)
    (linked : t.Linked) : t'.Linked := by
  cases step with
  | insert _ hj =>
    rw [Table.size_slots_insert] at few
    exact linked.insert few _
  | insertInline houter hj h =>
    rw [Table.size_slots_insertInline h] at few
    exact linked.insertInline few h
  | evict _ id => exact linked.evict id
  | replace hfree hold hj => exact linked.replace (Table.replace_of_get? _ hold)

theorem Steps.linked {t t' : Table} (steps : a.Steps free t t')
    (few : t'.slots.size ≤ UInt32.size) (linked : t.Linked) : t'.Linked :=
  steps.induction few linked fun linked step few => step.linked few linked

end Analyzer

end PageLint
