import PageLint.Proofs.Analysis.Backreference
import PageLint.Proofs.Analysis.Reanalysis

/-!
# The documents found in a document

A document lists the inline documents that were found in it, and the table lists the
documents inside it. As long as only documents are analyzed again or evicted that are not
inside others, the two lists go together entry by entry: none is missing, none is there
twice, and none is out of order.
-/

namespace PageLint

/-- The place of the document of a finding, inside of `p`. -/
structure Slot.Holds (s : Slot) (p : DocumentId) (inner : InlineDocument) : Prop where
  container : s.container = some p
  language : s.document.language = inner.language
  contents : s.document.contents = inner.contents
  offset : s.document.offset = some inner.offset

namespace Table

/-- `c` is, inside of `p`, the document of a finding. -/
def IsChild (t : Table) (p c : DocumentId) (inner : InlineDocument) : Prop :=
  ∃ s, t.slot? c = some s ∧ s.Holds p inner

/-- The documents inside one are those that were found in it, in their order. -/
def Filled (t : Table) (id : DocumentId) (s : Slot) : Prop :=
  List.Forall₂ (t.IsChild id) s.children s.document.inlineDocuments

def Complete (t : Table) : Prop :=
  ∀ id s, t.slot? id = some s → t.Filled id s

variable {t t' : Table}

theorem get?_of_slot? {id : DocumentId} {s : Slot} (h : t.slot? id = some s) :
    t.get? id = some s.document := by
  rw [get?, h, Option.map_some]

theorem complete_empty : empty.Complete := nofun

theorem IsChild.container? {p c : DocumentId} {inner : InlineDocument}
    (h : t.IsChild p c inner) : t.container? c = some p := by
  obtain ⟨s, hs, holds⟩ := h
  exact container?_eq_some.mpr ⟨s, hs, holds.container⟩

theorem IsChild.mono {p c : DocumentId} {inner : InlineDocument} (h : t.IsChild p c inner)
    (hslot : ∀ s, t.slot? c = some s →
      ∃ s', t'.slot? c = some s' ∧ s'.document = s.document ∧ s'.container = s.container) :
    t'.IsChild p c inner := by
  obtain ⟨s, hs, holds⟩ := h
  obtain ⟨s', hs', hdocument, hcontainer⟩ := hslot s hs
  refine ⟨s', hs', hcontainer.trans holds.container, ?_, ?_, ?_⟩
  · rw [hdocument, holds.language]
  · rw [hdocument, holds.contents]
  · rw [hdocument, holds.offset]

theorem Filled.isChild {id c : DocumentId} {s : Slot} {inner : InlineDocument} {i : Nat}
    (filled : t.Filled id s) (hc : s.children[i]? = some c)
    (hinner : s.document.inlineDocuments[i]? = some inner) : t.IsChild id c inner := by
  obtain ⟨hi, rfl⟩ := List.getElem?_eq_some_iff.mp hc
  obtain ⟨hi', rfl⟩ := List.getElem?_eq_some_iff.mp hinner
  exact filled.get hi hi'

theorem Filled.container? {id c : DocumentId} {s : Slot} (filled : t.Filled id s)
    (hc : c ∈ s.children) : t.container? c = some id := by
  obtain ⟨i, hi, rfl⟩ := List.mem_iff_getElem.mp hc
  have hi' : i < s.document.inlineDocuments.length := filled.length_eq ▸ hi
  exact (filled.isChild (List.getElem?_eq_getElem hi) (List.getElem?_eq_getElem hi')).container?

/-- A document stays filled if nothing happens to the documents inside it. -/
theorem Filled.mono {id : DocumentId} {s : Slot} (filled : t.Filled id s)
    (hslot : ∀ c ∈ s.children, ∀ sc, t.slot? c = some sc →
      ∃ sc', t'.slot? c = some sc' ∧ sc'.document = sc.document ∧
        sc'.container = sc.container) : t'.Filled id s := by
  apply List.forall₂_iff_get.mpr ⟨filled.length_eq, ?_⟩
  intro i hi hi'
  exact (filled.get hi hi').mono (hslot _ (List.getElem_mem hi))

/-! ## Adding the documents of findings -/

/-- The documents of some findings were added inside `c`, each with all that is inside it. -/
structure Fills (t : Table) (c : DocumentId) (children : List InlineDocument) (t' : Table) :
    Prop where
  kept {k : DocumentId} {s : Slot} (hs : t.slot? k = some s) (hk : k ≠ c) : t'.slot? k = some s
  grown : ∃ s ids, t.slot? c = some s ∧
    t'.slot? c = some { s with children := s.children ++ ids } ∧
      List.Forall₂ (t'.IsChild c) ids children
  filled {k : DocumentId} {s : Slot} (hnew : t.slot? k = none) (hs : t'.slot? k = some s) :
    t'.Filled k s

namespace Fills

variable {c : DocumentId} {children : List InlineDocument}

theorem nil (hlive : t.contains c) : t.Fills c [] t where
  kept hs _ := hs
  grown := by
    obtain ⟨s, hs⟩ := contains_iff.mp hlive
    refine ⟨s, [], hs, ?_, List.Forall₂.nil⟩
    rw [List.append_nil]
    exact hs
  filled hnew hs := by
    rw [hnew] at hs
    cases hs

/-- No document is changed but for what is inside it. -/
theorem moves (fills : t.Fills c children t') (k : DocumentId) (s : Slot)
    (hs : t.slot? k = some s) :
    ∃ s', t'.slot? k = some s' ∧ s'.document = s.document ∧ s'.container = s.container := by
  by_cases hk : k = c
  · subst hk
    obtain ⟨old, ids, hold, hgrown, -⟩ := fills.grown
    cases hs.symm.trans hold
    exact ⟨_, hgrown, rfl, rfl⟩
  · exact ⟨s, fills.kept hs hk, rfl, rfl⟩

theorem append {t'' : Table} {more : List InlineDocument} (first : t.Fills c children t')
    (second : t'.Fills c more t'') : t.Fills c (children ++ more) t'' := by
  obtain ⟨s, ids, hs, hs', hids⟩ := first.grown
  refine ⟨fun hk hne => second.kept (first.kept hk hne) hne, ?_, ?_⟩
  · obtain ⟨old, ids', hold, hgrown, hids'⟩ := second.grown
    cases hs'.symm.trans hold
    rw [List.append_assoc] at hgrown
    refine ⟨s, ids ++ ids', hs, hgrown, List.rel_append ?_ hids'⟩
    exact hids.imp fun _ _ h => h.mono (second.moves _)
  · intro k sk hnew hk
    cases hk' : t'.slot? k with
    | none => exact second.filled hk' hk
    | some sk' =>
      have hne : k ≠ c := by
        rintro rfl
        rw [hnew] at hs
        cases hs
      cases (second.kept hk' hne).symm.trans hk
      exact (first.filled hnew hk').mono fun c' _ => second.moves c'

/-- A document is added inside another, and then all that is inside the new one. -/
theorem insertInline {t₁ : Table} {id : DocumentId} {d : Document} {child : InlineDocument}
    (hfit : t.slots.size < UInt32.size) (h : t.insertInline c d = .ok (t₁, id))
    (holds : Slot.Holds ⟨d, some c, []⟩ c child)
    (fills : t₁.Fills id d.inlineDocuments t') : t.Fills c [child] t' := by
  obtain ⟨hlive, hid⟩ := insertInline_eq_ok h
  obtain ⟨sc, hsc⟩ := contains_iff.mp hlive
  have hslot := slot?_insertInline hfit h
  have hold : ∀ {k s}, t.slot? k = some s → k ≠ id := fun hs => hid ▸ ne_nextId_of_slot? hfit hs
  -- the new document, once all that is inside it is there
  obtain ⟨s, ids, hs, hs', hids⟩ := fills.grown
  rw [hslot, if_pos rfl] at hs
  cases hs
  refine ⟨?_, ⟨sc, [id], hsc, ?_, ?_⟩, ?_⟩
  · intro k sk hk hne
    apply fills.kept _ (hold hk)
    rw [hslot, if_neg (hold hk), if_neg hne]
    exact hk
  · apply fills.kept _ (hold hsc)
    rw [hslot, if_neg (hold hsc), if_pos rfl, hsc]
    rfl
  · exact .cons ⟨_, hs', holds.container, holds.language, holds.contents, holds.offset⟩ .nil
  · intro k sk hnew hk
    by_cases hkid : k = id
    · subst hkid
      cases hs'.symm.trans hk
      exact hids
    · have hne : k ≠ c := by
        rintro rfl
        rw [hnew] at hsc
        cases hsc
      apply fills.filled _ hk
      rw [hslot, if_neg hkid, if_neg hne]
      exact hnew

/-- What was missing inside one document is there now. -/
theorem complete (fills : t.Fills c children t')
    (others : ∀ k s, t.slot? k = some s → k ≠ c → t.Filled k s)
    (place : ∃ container d, t.slot? c = some ⟨d, container, []⟩ ∧ d.inlineDocuments = children) :
    t'.Complete := by
  intro k sk hk
  obtain ⟨container, d, hd, rfl⟩ := place
  by_cases hkc : k = c
  · subst hkc
    obtain ⟨old, ids, hold, hgrown, hids⟩ := fills.grown
    cases hd.symm.trans hold
    cases hgrown.symm.trans hk
    exact hids
  · cases hk' : t.slot? k with
    | none => exact fills.filled hk' hk
    | some sk' =>
      cases (fills.kept hk' hkc).symm.trans hk
      exact (others k sk hk' hkc).mono fun c' _ => fills.moves c'

end Fills

/-! ## Taking documents out -/

/-- A document that is not inside another goes with all that is inside it. -/
theorem Complete.evict (complete : t.Complete) (linked : t.Linked) {id : DocumentId}
    (htop : t.container? id = none) : (t.evict id).2.Complete := by
  rcases t.evict_cases id with h | h
  · rw [h]
    intro k s hs
    rw [slot?_without] at hs
    split at hs
    · cases hs
    · next hk =>
      obtain ⟨old, hold, rfl⟩ := Option.map_eq_some_iff.mp hs
      have filled := complete k old hold
      -- the documents inside one that stays are neither `id` nor inside it
      have hstay : ∀ c ∈ old.children, c ∉ t.subtree id := by
        intro c hc hgone
        have hcontainer := filled.container? hc
        obtain ⟨sc, hsc, rfl | ⟨p, hp, hmem, -⟩⟩ := (mem_subtree linked.fits).mp hgone
        · rw [htop] at hcontainer
          cases hcontainer
        · cases hcontainer.symm.trans (container?_eq_some.mpr ⟨sc, hsc, hp⟩)
          exact hk hmem
      have hchildren : old.children.filter (· ∉ t.subtree id) = old.children := by
        apply List.filter_eq_self.mpr
        intro c hc
        exact decide_eq_true (hstay c hc)
      rw [hchildren]
      apply filled.mono
      intro c hc sc hsc
      refine ⟨{ sc with children := sc.children.filter (· ∉ t.subtree id) }, ?_, rfl, rfl⟩
      rw [slot?_without, if_neg (hstay c hc), hsc]
      rfl
  · rw [h]
    exact complete

end Table

namespace Analyzer

open Table

variable {a : Analyzer}

/-- Where a document was emptied, only that document lacks what was found in it. -/
theorem filled_emptied {t : Table} (complete : t.Complete) (linked : t.Linked) {id : DocumentId}
    (htop : t.container? id = none) (d : Document) {k : DocumentId} {s : Slot}
    (hs : (emptied t id d).slot? k = some s) (hk : k ≠ id) : (emptied t id d).Filled k s := by
  have hout : ¬ t.Within k id := by
    intro h
    rw [(slot?_emptied_of_within linked d h).2] at hs
    cases hs
  rw [slot?_emptied_of_ne linked d hk hout] at hs
  have filled := complete k s hs
  apply filled.mono
  intro c hc sc hsc
  have hcontainer := filled.container? hc
  have hne : c ≠ id := by
    rintro rfl
    rw [htop] at hcontainer
    cases hcontainer
  have hwithin : ¬ t.Within c id := by
    intro h
    obtain ⟨p, hp, hrest⟩ := within_iff.mp h
    cases hcontainer.symm.trans hp
    exact hrest.elim hk hout
  exact ⟨sc, (slot?_emptied_of_ne linked d hne hwithin).trans hsc, rfl, rfl⟩

theorem holds_of_journal {url : Path} {child : InlineDocument} {j : Journal}
    (hj : a.journal url child.language child.contents (some child.offset) = .ok j)
    (c : DocumentId) : Slot.Holds ⟨j.document (some c), some c, []⟩ c child := by
  obtain ⟨tree, warnings, hparsed⟩ := exists_of_parse (journal_eq_ok_iff.mp hj).1
  have hdocument : j.document (some c) = { j.document (some c) with
      language := child.language, contents := child.contents, offset := some child.offset } := by
    rw [Journal.document, hparsed]
  rw [hdocument]
  exact ⟨rfl, rfl, rfl, rfl⟩

theorem size_le_of_addInline {depth : Nat} {t t' : Table} {c : DocumentId}
    {children : List InlineDocument} (h : a.addInline depth t c children = .ok t') :
    t.slots.size ≤ t'.slots.size := by
  have steps : a.Steps (fun _ _ => True) t t' := steps_addInline h
  exact steps.size_le

theorem fills_addInline {depth : Nat} {t t' : Table} {c : DocumentId}
    {children : List InlineDocument} (hlive : t.contains c)
    (h : a.addInline depth t c children = .ok t') (few : t'.slots.size ≤ UInt32.size) :
    t.Fills c children t' := by
  -- on the depth for what is inside a child, and on the children for what is beside it
  induction depth generalizing t t' c children with
  | zero =>
    cases children with
    | nil =>
      cases h
      exact Fills.nil hlive
    | cons child children => cases h
  | succ depth ihdepth =>
    induction children generalizing t with
    | nil =>
      cases h
      exact Fills.nil hlive
    | cons child children ihchildren =>
      rw [addInline_cons] at h
      obtain ⟨t₂, hchild, h⟩ := bind_eq_ok_iff.mp h
      obtain ⟨s, hs⟩ := contains_iff.mp hlive
      obtain ⟨j, t₁, id, hj, hinsert, hinner⟩ := (addChild_eq_ok (get?_of_slot? hs)).mp hchild
      have hfew₂ : t₂.slots.size ≤ UInt32.size :=
        Nat.le_trans (size_le_of_addInline h) few
      have hfew₁ : t₁.slots.size ≤ UInt32.size :=
        Nat.le_trans (size_le_of_addInline hinner) hfew₂
      have hfit : t.slots.size < UInt32.size := by
        rw [size_slots_insertInline hinsert] at hfew₁
        exact hfew₁
      have hid : t₁.contains id := by
        rw [contains, slot?_insertInline hfit hinsert, if_pos rfl]
        rfl
      have first : t.Fills c [child] t₂ := by
        apply Fills.insertInline hfit hinsert (holds_of_journal hj c)
        rw [Journal.inlineDocuments_document]
        exact ihdepth hid hinner hfew₂
      obtain ⟨_, _, -, hgrown, -⟩ := first.grown
      exact first.append (ihchildren (contains_of_slot? hgrown) h)

/-! ## Sessions -/

/-- The call changes only documents that are not inside others. -/
def Call.OnTop (t : Table) : Call → Prop
  | .analyze .. => True
  | .reanalyze id _ => Top t id
  | .evict id => Top t id

/-- All calls of a session change only documents that are not inside others when they are
made. -/
def OnTop (a : Analyzer) : Table → List Call → Prop
  | _, [] => True
  | t, call :: calls => call.OnTop t ∧ a.OnTop (a.after t call) calls

theorem complete_after {t : Table} (linked : t.Linked) (complete : t.Complete) {call : Call}
    (top : call.OnTop t) (few : (a.after t call).slots.size ≤ UInt32.size) :
    (a.after t call).Complete := by
  unfold after at few ⊢
  split
  · next t' h =>
    rw [h] at few
    cases call with
    | analyze url language contents =>
      obtain ⟨⟨t'', id⟩, hanalyze, rfl⟩ := map_eq_ok_iff.mp h
      obtain ⟨j, hj, -, hadd⟩ := analyze_eq_ok.mp hanalyze
      have hfit : t.slots.size < UInt32.size := by
        have hsize := size_le_of_addInline hadd
        rw [size_slots_insert] at hsize
        exact Nat.le_trans hsize few
      have hslot := slot?_insert t hfit (j.document none)
      have hplace : (t.insert (j.document none)).1.slot? t.nextId =
          some ⟨j.document none, none, []⟩ := by
        rw [hslot, if_pos rfl]
      refine (fills_addInline (contains_of_slot? hplace) hadd few).complete ?_
        ⟨none, j.document none, hplace, j.inlineDocuments_document none⟩
      intro k s hs hk
      rw [hslot, if_neg hk] at hs
      apply (complete k s hs).mono
      intro c _ sc hsc
      refine ⟨sc, ?_, rfl, rfl⟩
      rw [hslot, if_neg (ne_nextId_of_slot? hfit hsc)]
      exact hsc
    | reanalyze id contents =>
      cases hold : t.get? id with
      | none =>
        rw [perform, reanalyze_of_get?_eq_none hold] at h
        cases h
      | some old =>
        obtain ⟨j, hj, hadd⟩ := (reanalyze_eq_ok hold).mp h
        have hplace := slot?_emptied_of_top linked (j.document none) hold top
        refine (fills_addInline (contains_of_slot? hplace) hadd few).complete ?_
          ⟨none, j.document none, hplace, j.inlineDocuments_document none⟩
        exact fun k s hs hk => filled_emptied complete linked top (j.document none) hs hk
    | evict id =>
      cases h
      exact complete.evict linked top
  · exact complete

theorem complete_session {t : Table} {calls : List Call} (linked : t.Linked)
    (complete : t.Complete) (top : a.OnTop t calls)
    (few : (a.session t calls).slots.size ≤ UInt32.size) : (a.session t calls).Complete := by
  induction calls generalizing t with
  | nil => exact complete
  | cons call calls ih =>
    have respects : a.Respects (fun _ _ => True) (a.after t call) calls :=
      respects_of_forall (fun _ _ => trivial) _ _
    have hfew : (a.after t call).slots.size ≤ UInt32.size :=
      Nat.le_trans (steps_session respects).size_le few
    have steps : a.Steps (fun _ _ => True) t (a.after t call) :=
      steps_after (respects_of_forall (a := a) (fun _ _ => trivial) t [call]).1
    exact ih (steps.linked hfew linked) (complete_after linked complete top.1 hfew) top.2 few

/-- In every table that a session with the scanners of pages and scripts reaches before the
ids of 32 bits run out, the documents inside a document are, one for one and in the same
order, the inline documents that were found in it: each is in the table, is recorded as
inside of it, and has the language, the contents and the offset that were found. -/
theorem children_session (mode : ResolutionMode) (calls : List Call)
    (top : (withFunctions mode).OnTop Table.empty calls)
    (few : ((withFunctions mode).session Table.empty calls).slots.size ≤ UInt32.size) :
    let t := (withFunctions mode).session Table.empty calls
    ∀ id d, t.get? id = some d →
      (t.childrenOf id).length = d.inlineDocuments.length ∧
      ∀ (i : Nat) c inner, (t.childrenOf id)[i]? = some c →
        d.inlineDocuments[i]? = some inner → ∃ child, t.get? c = some child ∧
          t.container? c = some id ∧ child.language = inner.language ∧
            child.contents = inner.contents ∧ child.offset = some inner.offset := by
  intro t id d hd
  obtain ⟨s, hs, rfl⟩ := Option.map_eq_some_iff.mp hd
  have filled := complete_session linked_empty complete_empty top few id s hs
  have hchildren : t.childrenOf id = s.children := by
    rw [childrenOf, hs]
    rfl
  rw [hchildren]
  refine ⟨filled.length_eq, ?_⟩
  intro i c inner hc hinner
  have hchild : t.IsChild id c inner := filled.isChild hc hinner
  have hcontainer := hchild.container?
  obtain ⟨sc, hsc, holds⟩ := hchild
  exact ⟨sc.document, get?_of_slot? hsc, hcontainer, holds.language, holds.contents,
    holds.offset⟩

/-- Two pages are read, the first is read again, and the second is evicted. -/
def pagesChange : List Call :=
  [.analyze ⟨"a.html"⟩ .html "<script>f()</script><style>p {}</style>",
    .analyze ⟨"b.html"⟩ .html "<script>g()</script>",
    .reanalyze ⟨0⟩ "<style>a {}</style><script>f()</script>\n<script>function h() {}</script>",
    .evict ⟨3⟩]

theorem children_session_pagesChange :
    (withFunctions .parallel).OnTop Table.empty pagesChange ∧
      ((withFunctions .parallel).session Table.empty pagesChange).slots.size ≤ UInt32.size ∧
      let t := (withFunctions .parallel).session Table.empty pagesChange
      t.childrenOf ⟨0⟩ = [⟨5⟩, ⟨6⟩, ⟨7⟩] ∧
      ∃ child, t.get? ⟨7⟩ = some child ∧ t.container? ⟨7⟩ = some ⟨0⟩ ∧
        child.language = .css ∧ child.contents = "a {}" ∧ child.offset = some ⟨0, 7⟩ := by
  -- all in one, so that the session is run once
  have facts : ((withFunctions .parallel).session Table.empty (pagesChange.take 2)).container?
      ⟨0⟩ = none ∧
    ((withFunctions .parallel).session Table.empty (pagesChange.take 3)).container? ⟨3⟩ = none ∧
    ((withFunctions .parallel).session Table.empty pagesChange).slots.size ≤ UInt32.size ∧
    (((withFunctions .parallel).session Table.empty pagesChange).get? ⟨0⟩).isSome ∧
    ((withFunctions .parallel).session Table.empty pagesChange).childrenOf ⟨0⟩ =
      [⟨5⟩, ⟨6⟩, ⟨7⟩] ∧
    (((withFunctions .parallel).session Table.empty pagesChange).get? ⟨0⟩).bind
      (·.inlineDocuments[2]?) = some ⟨.css, "a {}", ⟨0, 7⟩, false, some ⟨0⟩⟩ := by decide +kernel
  obtain ⟨first, second, few, live, children, found⟩ := facts
  have top : (withFunctions .parallel).OnTop Table.empty pagesChange :=
    ⟨trivial, trivial, first, second, trivial⟩
  obtain ⟨d, hd⟩ := Option.isSome_iff_exists.mp live
  rw [hd] at found
  obtain ⟨-, hall⟩ := children_session .parallel pagesChange top few ⟨0⟩ d hd
  obtain ⟨child, hchild, hcontainer, hlanguage, hcontents, hoffset⟩ :=
    hall 2 ⟨7⟩ _ (by rw [children]; rfl) found
  exact ⟨top, few, children, child, hchild, hcontainer, hlanguage, hcontents, hoffset⟩

end Analyzer

end PageLint
