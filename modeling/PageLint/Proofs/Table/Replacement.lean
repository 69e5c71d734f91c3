import PageLint.Proofs.Table.Eviction

/-!
# Putting a document in the place of another

A document takes the place of another after each of the documents directly inside that was
evicted. Where the records of the table agree, the place is still there then, and it is empty but
for the old document: so a replacement is carried out as a whole or not at all.
-/

namespace PageLint.Table

/-- Why a document does not take the place of another. -/
inductive ReplaceError where
  /-- The request was refused before anything was changed. -/
  | refused (fault : Fault)
  /-- The place was gone when all that was inside it had been evicted. -/
  | vanished (id : DocumentId)
deriving DecidableEq

/-- Evicts what is inside a document, one after the other, and then puts another in its place.
Gives the old document, and the table that is left in any case. -/
def replaceInTurn (t : Table) (id : DocumentId) (document : Document) :
    Except ReplaceError Document × Table :=
  match t.slot? id with
  | none => (.error (.refused (.noSuchDocument .replace id)), t)
  | some s =>
    let t := t.evictEach s.children
    match t.get? id with
    | some old => (.ok old, t.setDocument id document)
    | none => (.error (.vanished id), t)

/-- The second table is the first one with another document in a place, and nothing inside it. -/
structure Exchanged (t : Table) (id : DocumentId) (d : Document) (t' : Table) : Prop where
  /-- The place belongs to the same container as before. -/
  place {s : Slot} (hs : t.slot? id = some s) : t'.slot? id = some ⟨d, s.container, []⟩
  contains_iff (k : DocumentId) : t'.contains k ↔ t.contains k ∧ ¬ t.Within k id
  kept {k : DocumentId} (hlive : t'.contains k) (hk : k ≠ id) : t'.slot? k = t.slot? k
  /-- The container has the same documents inside it, in the same order. -/
  siblings {p : DocumentId} (hp : t.container? id = some p) : t'.childrenOf p = t.childrenOf p

namespace Linked

variable {t : Table} (linked : t.Linked) {id : DocumentId} {s : Slot}

include linked

theorem under_children (hs : t.slot? id = some s) {k : DocumentId} :
    t.Under s.children k ↔ t.Within k id := by
  have hstep : ∀ c, k = c ∨ t.Within k c ↔
      Relation.ReflTransGen (fun c p => t.container? c = some p) k c := by
    intro c
    rw [Relation.reflTransGen_iff_eq_or_transGen, eq_comm]
    rfl
  rw [Within, Relation.TransGen.tail'_iff, Under]
  apply exists_congr
  intro c
  rw [linked.mem_children hs, and_comm, hstep]

theorem evictEach_children (hs : t.slot? id = some s) :
    t.evictEach s.children = t.without (t.inside id) := by
  apply linked.evictEach_eq_without ((linked.nodup_subtree id).filter _)
  intro k
  change k ∈ t.inside id ↔ _
  rw [linked.mem_inside, linked.under_children hs, and_iff_right_of_imp contains_of_within]

theorem replaceInTurn_eq (hs : t.slot? id = some s) (d : Document) : t.replaceInTurn id d =
    (.ok s.document, (t.without (t.inside id)).setDocument id d) := by
  unfold replaceInTurn
  rw [hs]
  simp only [linked.evictEach_children hs, get?, linked.slot?_without_inside hs, Option.map_some]

theorem exchanged (id : DocumentId) (d : Document) :
    t.Exchanged id d ((t.without (t.inside id)).setDocument id d) where
  place := by
    intro s' hs'
    rw [slot?_setDocument, if_pos rfl, linked.slot?_without_inside hs']
    rfl
  contains_iff := by
    intro k
    rw [contains_setDocument, contains_without, linked.mem_inside, and_comm]
  kept := by
    intro k hlive hk
    rw [contains_setDocument, contains_without, linked.mem_inside] at hlive
    rw [slot?_setDocument, if_neg hk, linked.slot?_without_inside_of_ne hk hlive.1]
  siblings := by
    intro p hp
    obtain ⟨hne, hout⟩ := not_or.mp (linked.not_within_of_container hp)
    rw [childrenOf, slot?_setDocument, if_neg hne, linked.slot?_without_inside_of_ne hne hout,
      childrenOf]

end Linked

/-- In every table that calls on the empty one reach before the ids of 32 bits run out, what is
asked of a document that is not there is refused and changes nothing, and a document that is
there can be replaced: the old one is given back, the place stays in its container, all that was
inside it goes, and no other document changes. -/
theorem replace_run (calls : List Call) (few : (empty.run calls).2.length ≤ UInt32.size)
    (id : DocumentId) (d : Document) :
    let t := (empty.run calls).1
    (¬ t.contains id →
      (t.insertInline id d = .error (.noSuchDocument .addInline id) ∧
        t.perform (.insertInline id d) = (t, none)) ∧
      t.replace id d = .error (.noSuchDocument .replace id) ∧
        t.perform (.replace id d) = (t, none) ∧
        t.replaceInTurn id d = (.error (.refused (.noSuchDocument .replace id)), t)) ∧
    ∀ s, t.slot? id = some s → ∃ t', t.replace id d = .ok (s.document, t') ∧
      t.replaceInTurn id d = (.ok s.document, t') ∧ t.Exchanged id d t' := by
  intro t
  obtain ⟨linked, -⟩ := linked_empty.run_spec calls (by simpa using few)
  constructor
  · intro hdead
    have hslot : t.slot? id = none := by simpa [contains] using hdead
    have hinsert := insertInline_of_not_contains d hdead
    have hreplace : t.replace id d = .error (.noSuchDocument .replace id) := by
      rw [replace, get?, hslot]
      rfl
    refine ⟨⟨hinsert, ?_⟩, hreplace, ?_, ?_⟩
    · rw [perform, hinsert]
    · rw [perform, hreplace]
    · rw [replaceInTurn, hslot]
  · intro s hs
    have hget : t.get? id = some s.document := by
      rw [get?, hs]
      rfl
    exact ⟨_, replace_of_get? d hget, linked.replaceInTurn_eq hs d, linked.exchanged id d⟩

theorem replace_run_nestedPage :
    let t := (empty.run nestedPage).1
    let d := Document.bare ⟨"page.html"⟩ .css "" Markup.Tree.empty none
    (empty.run nestedPage).2.length ≤ UInt32.size ∧
      t.replaceInTurn ⟨7⟩ d = (.error (.refused (.noSuchDocument .replace ⟨7⟩)), t) ∧
      ∃ old t', t.get? ⟨1⟩ = some old ∧ t.replace ⟨1⟩ d = .ok (old, t') ∧
        t.Exchanged ⟨1⟩ d t' ∧ t'.get? ⟨1⟩ = some d ∧ ¬ t'.contains ⟨2⟩ ∧
        t'.childrenOf ⟨0⟩ = [⟨1⟩, ⟨3⟩] := by
  intro t d
  have few : (empty.run nestedPage).2.length ≤ UInt32.size := by decide +kernel
  have live : (t.slot? ⟨1⟩).isSome := by decide +kernel
  have inner : t.container? ⟨2⟩ = some ⟨1⟩ := by decide +kernel
  have outer : t.container? ⟨1⟩ = some ⟨0⟩ := by decide +kernel
  have children : t.childrenOf ⟨0⟩ = [⟨1⟩, ⟨3⟩] := by decide +kernel
  obtain ⟨s, hs⟩ := Option.isSome_iff_exists.mp live
  obtain ⟨-, hlive⟩ := replace_run nestedPage few ⟨1⟩ d
  obtain ⟨hdead, -⟩ := replace_run nestedPage few ⟨7⟩ d
  obtain ⟨-, -, -, hrefused⟩ := hdead (by decide +kernel)
  obtain ⟨t', hreplace, -, exchanged⟩ := hlive s hs
  refine ⟨few, hrefused, s.document, t', ?_, hreplace, exchanged, ?_, ?_, ?_⟩
  · rw [get?, hs, Option.map_some]
  · rw [get?, exchanged.place hs, Option.map_some]
  · intro h
    exact ((exchanged.contains_iff ⟨2⟩).mp h).2 (Relation.TransGen.single inner)
  · rw [exchanged.siblings outer, children]

end PageLint.Table
