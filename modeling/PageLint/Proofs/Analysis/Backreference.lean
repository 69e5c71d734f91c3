import PageLint.Proofs.Analysis.Findings
import PageLint.Proofs.Analysis.Session

/-!
# Links back to the document around

The link of a document to the one around it is made before the document is in the
table and is never changed afterwards; the table records the edge on its own. In every
table that a session reaches the two say the same, as long as only documents are
analyzed again that are not inside others.
-/

namespace PageLint

/-- The features link the document to its container, if it has one, and to nothing else. -/
def Document.LinksTo (d : Document) (container : Option DocumentId) : Prop :=
  ∃ rest, d.features = (container.map backreferenceFeature).toList ++ rest ∧
    ∀ f ∈ rest, f.container? = none

theorem Journal.linksTo_document {j : Journal}
    (plain : ∀ f ∈ j.resolution.features, f.container? = none) (container : Option DocumentId) :
    (j.document container).LinksTo container :=
  ⟨j.resolution.features, rfl, plain⟩

theorem Document.LinksTo.backreference? {d : Document} {container : Option DocumentId}
    (h : d.LinksTo container) : d.backreference? = container := by
  obtain ⟨rest, hfeatures, hrest⟩ := h
  rw [Document.backreference?, hfeatures, List.findSome?_append,
    List.findSome?_eq_none_iff.mpr hrest]
  cases container with
  | none => rfl
  | some p => rfl

namespace Table

/-- The links of the documents are those that the table records. -/
structure Backlinked (t : Table) : Prop where
  linked : t.Linked
  linksTo {c : DocumentId} {s : Slot} (hs : t.slot? c = some s) : s.document.LinksTo s.container
  outer {c p : DocumentId} {s : Slot} (hs : t.slot? c = some s) (hp : s.container = some p) :
    s.document.isInline ∧ ∃ d, t.get? p = some d ∧ s.document.url = d.url

namespace Backlinked

variable {t : Table}

theorem empty : Backlinked empty where
  linked := linked_empty
  linksTo := nofun
  outer := nofun

theorem insert (back : t.Backlinked) (hfit : t.slots.size < UInt32.size) {d : Document}
    (hd : d.LinksTo none) : (t.insert d).1.Backlinked where
  linked := back.linked.insert hfit d
  linksTo := by
    intro c s hs
    rw [slot?_insert t hfit] at hs
    split at hs
    · cases hs
      exact hd
    · exact back.linksTo hs
  outer := by
    intro c p s hs hp
    rw [slot?_insert t hfit] at hs
    split at hs
    · cases hs
      cases hp
    · obtain ⟨hinline, q, hq, hurl⟩ := back.outer hs hp
      obtain ⟨sq, hsq, -⟩ := Option.map_eq_some_iff.mp hq
      refine ⟨hinline, q, ?_, hurl⟩
      rw [get?, slot?_insert t hfit, if_neg (ne_nextId_of_slot? hfit hsq)]
      exact hq

theorem insertInline (back : t.Backlinked) (hfit : t.slots.size < UInt32.size)
    {container id : DocumentId} {d outer : Document} {t' : Table}
    (h : t.insertInline container d = .ok (t', id)) (hd : d.LinksTo (some container))
    (hinline : d.isInline) (houter : t.get? container = some outer) (hurl : d.url = outer.url) :
    t'.Backlinked := by
  have slot_cases : ∀ {c s}, t'.slot? c = some s → s = ⟨d, some container, []⟩ ∨
      ∃ old, t.slot? c = some old ∧ s.document = old.document ∧ s.container = old.container := by
    intro c s hs
    rw [slot?_insertInline hfit h] at hs
    split at hs
    · cases hs
      exact Or.inl rfl
    · split at hs
      · next hc =>
        obtain ⟨old, hold, rfl⟩ := Option.map_eq_some_iff.mp hs
        exact Or.inr ⟨old, hc ▸ hold, rfl, rfl⟩
      · exact Or.inr ⟨s, hs, rfl, rfl⟩
  refine ⟨back.linked.insertInline hfit h, ?_, ?_⟩
  · intro c s hs
    rcases slot_cases hs with rfl | ⟨old, hold, hdocument, hcontainer⟩
    · exact hd
    · rw [hdocument, hcontainer]
      exact back.linksTo hold
  · intro c p s hs hp
    rcases slot_cases hs with rfl | ⟨old, hold, hdocument, hcontainer⟩
    · cases hp
      exact ⟨hinline, outer, get?_insertInline_of_get? h houter, hurl⟩
    · rw [hdocument]
      obtain ⟨hinline, q, hq, hurl⟩ := back.outer hold (hcontainer ▸ hp)
      exact ⟨hinline, q, get?_insertInline_of_get? h hq, hurl⟩

/-- Documents may go together with all that is inside them. -/
theorem without (back : t.Backlinked) {gone : List DocumentId}
    (linked : (t.without gone).Linked)
    (closed : ∀ c p, t.container? c = some p → p ∈ gone → c ∈ gone) :
    (t.without gone).Backlinked := by
  have slot_old : ∀ {c s}, (t.without gone).slot? c = some s → c ∉ gone ∧
      ∃ old, t.slot? c = some old ∧ s.document = old.document ∧ s.container = old.container := by
    intro c s hs
    rw [slot?_without] at hs
    split at hs
    · cases hs
    · next hc =>
      obtain ⟨old, hold, rfl⟩ := Option.map_eq_some_iff.mp hs
      exact ⟨hc, old, hold, rfl, rfl⟩
  refine ⟨linked, ?_, ?_⟩
  · intro c s hs
    obtain ⟨-, old, hold, hdocument, hcontainer⟩ := slot_old hs
    rw [hdocument, hcontainer]
    exact back.linksTo hold
  · intro c p s hs hp
    obtain ⟨hc, old, hold, hdocument, hcontainer⟩ := slot_old hs
    rw [hcontainer] at hp
    obtain ⟨hinline, q, hq, hurl⟩ := back.outer hold hp
    have hkeep : p ∉ gone := by
      intro hgone
      exact hc (closed c p (container?_eq_some.mpr ⟨old, hold, hp⟩) hgone)
    rw [hdocument]
    refine ⟨hinline, q, ?_, hurl⟩
    rw [get?_without, if_neg hkeep]
    exact hq

/-- A document that is not inside another may change, as long as its url does not. -/
theorem setDocument (back : t.Backlinked) {id : DocumentId} {d old : Document}
    (hold : t.get? id = some old) (htop : t.container? id = none) (hd : d.LinksTo none)
    (hurl : d.url = old.url) : (t.setDocument id d).Backlinked := by
  have slot_cases : ∀ {c s}, (t.setDocument id d).slot? c = some s →
      (c = id ∧ s.document = d ∧ s.container = none) ∨ t.slot? c = some s := by
    intro c s hs
    rw [slot?_setDocument] at hs
    split at hs
    · next hc =>
      obtain ⟨old, hold, rfl⟩ := Option.map_eq_some_iff.mp hs
      rw [container?, hold] at htop
      exact Or.inl ⟨hc, rfl, htop⟩
    · exact Or.inr hs
  refine ⟨back.linked.setDocument id d, ?_, ?_⟩
  · intro c s hs
    rcases slot_cases hs with ⟨-, rfl, hcontainer⟩ | hs
    · rw [hcontainer]
      exact hd
    · exact back.linksTo hs
  · intro c p s hs hp
    rcases slot_cases hs with ⟨-, -, hcontainer⟩ | hs
    · rw [hcontainer] at hp
      cases hp
    · obtain ⟨hinline, q, hq, hurlq⟩ := back.outer hs hp
      refine ⟨hinline, ?_⟩
      rw [get?, slot?_setDocument]
      by_cases hpid : p = id
      · subst hpid
        cases hq.symm.trans hold
        obtain ⟨sold, hsold, -⟩ := Option.map_eq_some_iff.mp hold
        rw [if_pos rfl, hsold]
        exact ⟨d, rfl, hurlq.trans hurl.symm⟩
      · rw [if_neg hpid]
        exact ⟨q, hq, hurlq⟩

end Backlinked

end Table

namespace Analyzer

variable {a : Analyzer}

/-- The document is not inside another. -/
def Top (t : Table) (id : DocumentId) : Prop := t.container? id = none

theorem Step.backlinked (plain : a.Plain) {t t' : Table} (step : a.Step Top t t')
    (few : t'.slots.size ≤ UInt32.size) (back : t.Backlinked) : t'.Backlinked := by
  cases step with
  | insert _ hj =>
    rw [Table.size_slots_insert] at few
    exact back.insert few (Journal.linksTo_document (plain.features hj) none)
  | insertInline houter hj h =>
    rw [Table.size_slots_insertInline h] at few
    obtain ⟨hurl, hoffset⟩ := parsed_of_journal hj
    apply back.insertInline few h (Journal.linksTo_document (plain.features hj) _) _ houter hurl
    rw [Document.isInline]
    exact congrArg Option.isSome hoffset
  | evict _ id =>
    have linked := back.linked.evict id
    rcases t.evict_cases id with h | h
    · rw [h] at linked ⊢
      exact back.without linked fun _ _ => back.linked.mem_subtree_of_container?
    · rw [h]
      exact back
  | replace hfree hold hj =>
    apply (back.without (back.linked.without_inside _) fun _ _ =>
      back.linked.mem_inside_of_container?).setDocument
    · rw [Table.get?_without, if_neg (t.not_mem_inside _)]
      exact hold
    · rw [Table.container?_without, if_neg (t.not_mem_inside _)]
      exact hfree
    · exact Journal.linksTo_document (plain.features hj) none
    · exact (parsed_of_journal hj).1

/-- In every table that a session with the scanners of pages and scripts reaches before the
ids of 32 bits run out, a document inside another is of the same file, and the first of its
features, and no other, links it to that one; a document that is not inside another has no
such feature. -/
theorem backreferences_session (mode : ResolutionMode) (calls : List Call)
    (top : (withFunctions mode).Respects Top Table.empty calls)
    (few : ((withFunctions mode).session Table.empty calls).slots.size ≤ UInt32.size) :
    let t := (withFunctions mode).session Table.empty calls
    ∀ id d, t.get? id = some d →
      (∀ p, t.container? id = some p → ∃ outer, t.get? p = some outer ∧ d.isInline ∧
        d.url = outer.url ∧
        (∃ f rest, d.features = f :: rest ∧ f.container? = some p ∧ f.identifiers = [] ∧
          ∀ g ∈ rest, g.container? = none) ∧
        t.containerOf id = some outer) ∧
      (t.container? id = none →
        (∀ f ∈ d.features, f.container? = none) ∧ t.containerOf id = none) := by
  intro t id d hd
  have back : t.Backlinked := (steps_session top).induction few Table.Backlinked.empty
    fun back step few => step.backlinked (plain_withFunctions mode) few back
  obtain ⟨s, hs, rfl⟩ := Option.map_eq_some_iff.mp hd
  have hcontainer : t.container? id = s.container := by
    rw [Table.container?, hs]
    rfl
  have hlinks := back.linksTo hs
  have hcontainerOf : t.containerOf id = s.container.bind t.get? := by
    rw [Table.containerOf, hd, Option.bind_some, hlinks.backreference?]
  rw [hcontainer, hcontainerOf]
  obtain ⟨rest, hfeatures, hrest⟩ := hlinks
  constructor
  · intro p hp
    obtain ⟨hinline, outer, houter, hurl⟩ := back.outer hs hp
    rw [hp] at hfeatures ⊢
    exact ⟨outer, houter, hinline, hurl, ⟨_, rest, hfeatures, rfl, rfl, hrest⟩, houter⟩
  · intro hnone
    rw [hnone] at hfeatures ⊢
    rw [hfeatures]
    exact ⟨hrest, rfl⟩

/-- A page is read, read again with other scripts, and loses one of them. -/
def scriptsChange : List Call :=
  [.analyze ⟨"a.html"⟩ .html "<script>function f() {}</script><style>p {}</style>",
    .reanalyze ⟨0⟩ "<p><script>g()</script><script>function h() {}</script>",
    .evict ⟨3⟩]

theorem backreferences_session_scriptsChange :
    (withFunctions .sequential).Respects Top Table.empty scriptsChange ∧
      ((withFunctions .sequential).session Table.empty scriptsChange).slots.size ≤ UInt32.size ∧
      let t := (withFunctions .sequential).session Table.empty scriptsChange
      ∃ d outer, t.get? ⟨4⟩ = some d ∧ t.get? ⟨0⟩ = some outer ∧ d.url = outer.url ∧
        t.containerOf ⟨4⟩ = some outer := by
  have top : (withFunctions .sequential).Respects Top Table.empty scriptsChange := by
    refine ⟨trivial, ?_, trivial, trivial⟩
    change Table.container? _ _ = none
    decide +kernel
  have few : ((withFunctions .sequential).session Table.empty scriptsChange).slots.size ≤
      UInt32.size := by decide +kernel
  have live : (((withFunctions .sequential).session Table.empty scriptsChange).get? ⟨4⟩).isSome := by
    decide +kernel
  have inside : ((withFunctions .sequential).session Table.empty scriptsChange).container? ⟨4⟩ =
      some ⟨0⟩ := by decide +kernel
  obtain ⟨d, hd⟩ := Option.isSome_iff_exists.mp live
  obtain ⟨hinner, -⟩ := backreferences_session .sequential scriptsChange top few ⟨4⟩ d hd
  obtain ⟨outer, houter, -, hurl, -, hcontainerOf⟩ := hinner ⟨0⟩ inside
  exact ⟨top, few, d, outer, hd, houter, hurl, hcontainerOf⟩

end Analyzer

end PageLint
