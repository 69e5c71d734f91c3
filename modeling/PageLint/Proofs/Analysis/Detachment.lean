import PageLint.Proofs.Analysis.Children

/-!
# Reading a document inside another again

A document that is read again is made as one that is inside no other: it has no offset and no link
to a container. The table still records the container that the place had. So for a document inside
another the two records part, while a document that is not inside another stays what it was.
-/

namespace PageLint

/-- The document of a place is embedded in the container of the place and linked to it, or it is
made as one that is inside no other. -/
structure Slot.Anchored (s : Slot) : Prop where
  embedded (h : s.document.isInline) : s.container.isSome ∧ s.document.LinksTo s.container
  apart (h : ¬ s.document.isInline) : s.document.LinksTo none

/-- Two places are alike but for what is inside them. -/
def Slot.Alike (s s' : Slot) : Prop := s'.document = s.document ∧ s'.container = s.container

theorem Slot.Anchored.of_alike {s s' : Slot} (h : s.Anchored) (alike : s.Alike s') :
    s'.Anchored where
  embedded := by
    rw [alike.1, alike.2]
    exact h.embedded
  apart := by
    rw [alike.1]
    exact h.apart

namespace Table

theorem exists_alike_of_without {t : Table} {gone : List DocumentId} {k : DocumentId} {s' : Slot}
    (h : (t.without gone).slot? k = some s') : ∃ s, t.slot? k = some s ∧ s.Alike s' := by
  rw [slot?_without] at h
  split at h
  · cases h
  · obtain ⟨s, hs, rfl⟩ := Option.map_eq_some_iff.mp h
    exact ⟨s, hs, rfl, rfl⟩

end Table

namespace Analyzer

open Table

variable {a : Analyzer} {free : Table → DocumentId → Prop}

/-- The document of the place was just made, with an offset if it is inside another. -/
def Fresh (a : Analyzer) (s : Slot) : Prop :=
  ∃ url language contents offset j container,
    a.journal url language contents offset = .ok j ∧ s.document = j.document container ∧
      container.isSome = offset.isSome ∧ (container.isSome → s.container = container)

theorem Fresh.anchored (plain : a.Plain) {s : Slot} (fresh : a.Fresh s) : s.Anchored := by
  obtain ⟨url, language, contents, offset, j, container, hj, hdocument, hoffset, hcontainer⟩ :=
    fresh
  have hlinks := Journal.linksTo_document (plain.features hj) container
  rw [← hdocument] at hlinks
  have hinline : s.document.isInline = container.isSome := by
    rw [hoffset, ← (parsed_of_journal hj).2, hdocument]
    rfl
  constructor
  · intro h
    rw [hinline] at h
    rw [hcontainer h]
    exact ⟨h, hlinks⟩
  · intro h
    rw [hinline, Option.not_isSome_iff_eq_none] at h
    rw [← h]
    exact hlinks

/-- A step leaves the places as they were, but for what is inside them, or with documents that it
just made. -/
theorem Step.slot_cases {t t' : Table} (step : a.Step free t t')
    (few : t'.slots.size ≤ UInt32.size) {k : DocumentId} {s' : Slot} (hs' : t'.slot? k = some s') :
    (∃ s, t.slot? k = some s ∧ s.Alike s') ∨ a.Fresh s' := by
  cases step with
  | insert _ hj =>
    rw [size_slots_insert] at few
    rw [slot?_insert t few] at hs'
    split at hs'
    · cases hs'
      exact Or.inr ⟨_, _, _, _, _, none, hj, rfl, rfl, nofun⟩
    · exact Or.inl ⟨s', hs', rfl, rfl⟩
  | insertInline houter hj h =>
    rw [size_slots_insertInline h] at few
    rw [slot?_insertInline few h] at hs'
    split at hs'
    · cases hs'
      exact Or.inr ⟨_, _, _, _, _, some _, hj, rfl, rfl, fun _ => rfl⟩
    · split at hs'
      · next hk =>
        obtain ⟨s, hs, rfl⟩ := Option.map_eq_some_iff.mp hs'
        exact Or.inl ⟨s, hk ▸ hs, rfl, rfl⟩
      · exact Or.inl ⟨s', hs', rfl, rfl⟩
  | evict _ id =>
    rcases t.evict_cases id with h | h
    · rw [h] at hs'
      exact Or.inl (exists_alike_of_without hs')
    · rw [h] at hs'
      exact Or.inl ⟨s', hs', rfl, rfl⟩
  | replace hfree hold hj =>
    rw [emptied, slot?_setDocument] at hs'
    split at hs'
    · obtain ⟨s, -, rfl⟩ := Option.map_eq_some_iff.mp hs'
      exact Or.inr ⟨_, _, _, _, _, none, hj, rfl, rfl, nofun⟩
    · exact Or.inl (exists_alike_of_without hs')

theorem anchored_session (plain : a.Plain) (calls : List Call)
    (few : (a.session Table.empty calls).slots.size ≤ UInt32.size) {id : DocumentId} {s : Slot}
    (hs : (a.session Table.empty calls).slot? id = some s) : s.Anchored := by
  have steps : a.Steps (fun _ _ => True) Table.empty (a.session Table.empty calls) :=
    steps_session (respects_of_forall (fun _ _ => trivial) _ _)
  have anchored : ∀ id s, (a.session Table.empty calls).slot? id = some s → s.Anchored := by
    apply steps.induction (P := fun t => ∀ id s, t.slot? id = some s → s.Anchored) few nofun
    intro t t' anchored step few id s' hs'
    rcases step.slot_cases few hs' with ⟨s, hs, alike⟩ | fresh
    · exact (anchored id s hs).of_alike alike
    · exact fresh.anchored plain
  exact anchored id s hs

/-- The document that is read again stands in its old place, but is made as one that is inside no
other. -/
theorem exists_slot?_reanalyze {t t' : Table} {id : DocumentId} {s : Slot} (plain : a.Plain)
    (linked : t.Linked) (hs : t.slot? id = some s) {contents : String}
    (h : a.reanalyze t id contents = .ok t') (few : t'.slots.size ≤ UInt32.size) :
    ∃ s', t'.slot? id = some s' ∧ s'.container = s.container ∧
      s'.document.offset = none ∧ s'.document.LinksTo none := by
  obtain ⟨j, hj, hadd⟩ := (reanalyze_eq_ok (get?_of_slot? hs)).mp h
  have hplace := slot?_emptied linked (j.document none) hs
  obtain ⟨s', hs', hdocument, hcontainer⟩ :=
    (fills_addInline (contains_of_slot? hplace) hadd few).moves id _ hplace
  refine ⟨s', hs', hcontainer, ?_, ?_⟩
  · rw [hdocument]
    exact (parsed_of_journal hj).2
  · rw [hdocument]
    exact Journal.linksTo_document (plain.features hj) none

theorem containerOf_of_linksTo {t : Table} {id : DocumentId} {s : Slot}
    {container : Option DocumentId} (hs : t.slot? id = some s)
    (h : s.document.LinksTo container) : t.containerOf id = container.bind t.get? := by
  rw [containerOf, get?_of_slot? hs, Option.bind_some, h.backreference?]

/-- After any session, a document that is read again keeps its offset and the document that it
says it is in exactly if it is not an inline document. It then has neither; the table goes on
recording the container. A document without a recorded container is no inline document. -/
theorem link_kept_iff (plain : a.Plain) (calls : List Call) (id : DocumentId) (contents : String)
    {old : Document} {t' : Table} (hold : (a.session Table.empty calls).get? id = some old)
    (h : a.reanalyze (a.session Table.empty calls) id contents = .ok t')
    (few : t'.slots.size ≤ UInt32.size) :
    let t := a.session Table.empty calls
    (∃ d, t'.get? id = some d ∧ d.offset = none ∧ (d.offset = old.offset ↔ ¬ old.isInline)) ∧
      t'.containerOf id = none ∧ (t'.containerOf id = t.containerOf id ↔ ¬ old.isInline) ∧
      t'.container? id = t.container? id ∧ (t.container? id = none → ¬ old.isInline) := by
  intro t
  have steps : a.Steps (fun _ _ => True) t (a.after t (.reanalyze id contents)) :=
    steps_after trivial
  rw [after, perform, h] at steps
  have hfew : t.slots.size ≤ UInt32.size := Nat.le_trans steps.size_le few
  have respects : a.Respects (fun _ _ => True) Table.empty calls :=
    respects_of_forall (fun _ _ => trivial) _ _
  have linked : t.Linked := (steps_session respects).linked hfew linked_empty
  obtain ⟨s, hs, rfl⟩ := Option.map_eq_some_iff.mp hold
  have anchored := anchored_session plain calls hfew hs
  obtain ⟨s', hs', hcontainer, hoffset, hlinks⟩ := exists_slot?_reanalyze plain linked hs h few
  have hnone : t'.containerOf id = none := containerOf_of_linksTo hs' hlinks
  have hrecorded : t.container? id = s.container := by
    rw [container?, hs]
    rfl
  refine ⟨⟨s'.document, get?_of_slot? hs', hoffset, ?_⟩, hnone, ?_, ?_, ?_⟩
  · rw [hoffset, Document.isInline, Option.not_isSome_iff_eq_none, eq_comm]
  · rw [hnone]
    by_cases hinline : s.document.isInline
    · obtain ⟨hsome, hlinks⟩ := anchored.embedded hinline
      obtain ⟨p, hp⟩ := Option.isSome_iff_exists.mp hsome
      -- the container of an inline document is in the table
      obtain ⟨sp, hsp⟩ := contains_iff.mp (linked.container (hrecorded.trans hp)).1
      have hfound : t.containerOf id = some sp.document := by
        rw [containerOf_of_linksTo hs hlinks, hp, Option.bind_some, get?_of_slot? hsp]
      rw [hfound]
      exact iff_of_false (Option.some_ne_none _).symm (not_not_intro hinline)
    · exact iff_of_true (containerOf_of_linksTo hs (anchored.apart hinline)).symm hinline
  · rw [hrecorded, container?, hs', Option.bind_some, hcontainer]
  · intro htop hinline
    obtain ⟨hsome, -⟩ := anchored.embedded hinline
    rw [← hrecorded, htop] at hsome
    cases hsome

/-- A page with a script in it is read. -/
def pageWithScript : List Call := [.analyze ⟨"a.html"⟩ .html "<script>f()</script>"]

theorem link_kept_iff_pageWithScript :
    let a := withFunctions .sequential
    let t := a.session Table.empty pageWithScript
    ∃ old t' d, t.get? ⟨0⟩ = some old ∧ ¬ old.isInline ∧ a.reanalyze t ⟨0⟩ "<p>" = .ok t' ∧
      t'.slots.size ≤ UInt32.size ∧ t'.get? ⟨0⟩ = some d ∧ d.offset = old.offset ∧
      t'.containerOf ⟨0⟩ = t.containerOf ⟨0⟩ := by
  intro a t
  have live : (t.get? ⟨0⟩).isSome := by decide +kernel
  have htop : t.container? ⟨0⟩ = none := by decide +kernel
  have hsize : (a.reanalyze t ⟨0⟩ "<p>").map (·.slots.size) = .ok 2 := by decide +kernel
  obtain ⟨old, hold⟩ := Option.isSome_iff_exists.mp live
  obtain ⟨t', ht', hsize⟩ := map_eq_ok_iff.mp hsize
  have few : t'.slots.size ≤ UInt32.size := by
    rw [hsize]
    decide
  obtain ⟨⟨d, hd, -, hoffset⟩, -, hcontainerOf, -, hinline⟩ :=
    link_kept_iff (plain_withFunctions .sequential) pageWithScript ⟨0⟩ "<p>" hold ht' few
  have hinline := hinline htop
  exact ⟨old, t', d, hold, hinline, ht', few, hd, hoffset.mpr hinline, hcontainerOf.mpr hinline⟩

/-- When the script is read again, it loses its offset and the page that it says it is in, and
yet stays on the list of the documents inside the page. -/
theorem link_lost_pageWithScript :
    let a := withFunctions .sequential
    let t := a.session Table.empty pageWithScript
    (t.get? ⟨1⟩).map (·.offset) = some (some ⟨0, 8⟩) ∧
      t.containerOf ⟨1⟩ = t.get? ⟨0⟩ ∧ (t.get? ⟨0⟩).isSome ∧
      ∃ t', a.reanalyze t ⟨1⟩ "g()" = .ok t' ∧
        (t'.get? ⟨1⟩).map (·.offset) = some none ∧
        t'.containerOf ⟨1⟩ = none ∧ t'.childrenOf ⟨0⟩ = [⟨1⟩] := by
  intro a t
  have before : (t.get? ⟨1⟩).map (·.offset) = some (some ⟨0, 8⟩) ∧
      t.containerOf ⟨1⟩ = t.get? ⟨0⟩ ∧ (t.get? ⟨0⟩).isSome := by decide +kernel
  have hafter : (a.reanalyze t ⟨1⟩ "g()").map (fun t' => ((t'.get? ⟨1⟩).map (·.offset),
      t'.containerOf ⟨1⟩, t'.childrenOf ⟨0⟩)) = .ok (some none, none, [⟨1⟩]) := by decide +kernel
  obtain ⟨hoffset, hcontainerOf, hlive⟩ := before
  obtain ⟨t', ht', hafter⟩ := map_eq_ok_iff.mp hafter
  obtain ⟨hoffset', hafter⟩ := Prod.mk.inj hafter
  obtain ⟨hcontainerOf', hchildren⟩ := Prod.mk.inj hafter
  exact ⟨hoffset, hcontainerOf, hlive, t', ht', hoffset', hcontainerOf', hchildren⟩

end Analyzer

end PageLint
