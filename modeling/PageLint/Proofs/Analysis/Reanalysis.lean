import PageLint.Proofs.Analysis.Mirror

/-!
# Reading a document again

When new contents are put in the place of a document, the old documents inside it go, and
the new ones are those that the contents have in a table of their own. All other documents
stay as they are. This is so whatever the table went through before.
-/

namespace PageLint

namespace Table

/-- The second table is the first one with a copy of the documents of `fresh` in the place of
a document and of all that was inside it. -/
structure Replaced (t : Table) (id : DocumentId) (fresh : Table) (root : DocumentId)
    (ρ : DocumentId → DocumentId) (t' : Table) : Prop where
  root : ρ root = id
  injective {k l : DocumentId} (hk : fresh.contains k) (hl : fresh.contains l) (h : ρ k = ρ l) :
    k = l
  copied {k : DocumentId} {s : Slot} (hs : fresh.slot? k = some s) :
    t'.slot? (ρ k) = some (s.renamed ρ)
  /-- All that is inside the new document is a copy. -/
  onto {l : DocumentId} (h : t'.Within l id) : ∃ k, fresh.contains k ∧ ρ k = l
  gone {k : DocumentId} (h : t.Within k id) : ¬ t'.contains k
  kept {k : DocumentId} (hlive : t.contains k) (hk : k ≠ id) (h : ¬ t.Within k id) :
    t'.slot? k = t.slot? k

section

variable {base fresh t : Table} {id : DocumentId} (mirrors : Mirrors base id fresh t)
  (linked : t.Linked) (linkedFresh : fresh.Linked)

include mirrors linked linkedFresh

/-- What is directly inside a copy is a copy. -/
theorem Mirrors.exists_of_container? {k l : DocumentId} (hk : fresh.contains k)
    (h : t.container? l = some (movedTo base.slots.size id k)) :
    ∃ m, fresh.contains m ∧ movedTo base.slots.size id m = l := by
  obtain ⟨s, hs⟩ := contains_iff.mp hk
  obtain ⟨m, hm, hml⟩ := List.mem_map.mp ((linked.mem_children (mirrors.copied hs) l).mpr h)
  obtain ⟨sm, hsm, -⟩ := container?_eq_some.mp ((linkedFresh.mem_children hs m).mp hm)
  exact ⟨m, contains_of_slot? hsm, hml⟩

theorem Mirrors.exists_of_within {root l : DocumentId} (hroot : fresh.contains root)
    (hid : movedTo base.slots.size id root = id) (h : t.Within l id) :
    ∃ k, fresh.contains k ∧ movedTo base.slots.size id k = l := by
  induction h using Relation.TransGen.head_induction_on with
  | single hcontainer =>
    rw [← hid] at hcontainer
    exact mirrors.exists_of_container? linked linkedFresh hroot hcontainer
  | head hcontainer _ ih =>
    obtain ⟨k, hk, rfl⟩ := ih
    exact mirrors.exists_of_container? linked linkedFresh hk hcontainer

end

end Table

namespace Analyzer

open Table

variable {a : Analyzer}

/-! ## The place of the document -/

section

variable {t : Table} (linked : t.Linked) {id : DocumentId} (d : Document)

include linked

theorem slot?_emptied {s : Slot} (hs : t.slot? id = some s) :
    (emptied t id d).slot? id = some ⟨d, s.container, []⟩ := by
  rw [emptied, slot?_setDocument, if_pos rfl, linked.slot?_without_inside hs]
  rfl

theorem slot?_emptied_of_top {old : Document} (hold : t.get? id = some old)
    (htop : t.container? id = none) : (emptied t id d).slot? id = some ⟨d, none, []⟩ := by
  obtain ⟨s, hs, -⟩ := Option.map_eq_some_iff.mp hold
  have hcontainer : s.container = none := by
    rw [container?, hs] at htop
    exact htop
  rw [slot?_emptied linked d hs, hcontainer]

theorem slot?_emptied_of_ne {k : DocumentId} (hk : k ≠ id) (h : ¬ t.Within k id) :
    (emptied t id d).slot? k = t.slot? k := by
  rw [emptied, slot?_setDocument, if_neg hk, linked.slot?_without_inside_of_ne hk h]

theorem slot?_emptied_of_within {k : DocumentId} (h : t.Within k id) :
    k ≠ id ∧ (emptied t id d).slot? k = none := by
  have hmem := linked.mem_inside.mpr h
  have hk : k ≠ id := by
    rintro rfl
    exact t.not_mem_inside k hmem
  rw [emptied, slot?_setDocument, if_neg hk, slot?_without, if_pos hmem]
  exact ⟨hk, rfl⟩

end

/-! ## The copy -/

theorem mirrors_start (plain : a.Plain) {t : Table} (linked : t.Linked) {id : DocumentId}
    {old : Document} (hold : t.get? id = some old) (htop : t.container? id = none)
    {url : Path} {language : Language} {contents : String} {j : Journal}
    (hj : a.journal url language contents none = .ok j) :
    Mirrors (emptied t id (j.document none)) id (Table.empty.insert (j.document none)).1
      (emptied t id (j.document none)) := by
  have hsize := size_slots_emptied t id (j.document none)
  obtain ⟨s, hs, -⟩ := Option.map_eq_some_iff.mp hold
  have hroot := index_lt_of_slot? hs
  refine ⟨hsize ▸ hroot, Nat.one_pos, rfl, hsize ▸ linked.fits, ?_, fun _ _ => rfl⟩
  intro k s hs
  rw [slot?_insert Table.empty (by decide)] at hs
  split at hs
  · next hk =>
    cases hs
    have hmoved : movedTo (emptied t id (j.document none)).slots.size id k = id := by
      rw [hk]
      exact if_pos rfl
    rw [hmoved, slot?_emptied_of_top linked _ hold htop, Slot.renamed,
      Journal.renamed_document (plain.features hj)]
    rfl
  · cases hs

theorem Plain.replaced (plain : a.Plain) {t t' : Table} (linked : t.Linked) {id : DocumentId}
    {old : Document} (hold : t.get? id = some old) (htop : t.container? id = none)
    {contents : String} (h : a.reanalyze t id contents = .ok t')
    (few : t'.slots.size ≤ UInt32.size) :
    ∃ fresh root ρ, a.analyze Table.empty old.url old.language contents = .ok (fresh, root) ∧
      t.Replaced id fresh root ρ t' := by
  obtain ⟨j, hj, hadd⟩ := (reanalyze_eq_ok hold).mp h
  have hsize := size_slots_emptied t id (j.document none)
  have hlt : ∀ {k : DocumentId} {s : Slot}, t.slot? k = some s →
      k.index.toNat < (emptied t id (j.document none)).slots.size :=
    fun hs => hsize ▸ index_lt_of_slot? hs
  have hroot : movedTo (emptied t id (j.document none)).slots.size id Table.empty.nextId = id :=
    if_pos rfl
  have hstart : (Table.empty.insert (j.document none)).1.contains Table.empty.nextId := by
    rw [contains, slot?_insert Table.empty (by decide), if_pos rfl]
    rfl
  -- what is added inside `id` is added inside the one document of a table of its own
  obtain ⟨fresh, hfresh, mirrors, hkeep⟩ := plain.copies nestingLimit _ id
    (mirrors_start plain linked hold htop hj) hstart (hroot.symm ▸ hadd) few
  have hfew : fresh.slots.size ≤ UInt32.size := by
    have := mirrors.size
    have := mirrors.root
    omega
  have steps : a.Steps (fun _ _ => True) t t' :=
    Relation.ReflTransGen.head (Step.replace trivial hold hj) (steps_addInline hadd)
  have stepsFresh : a.Steps (fun _ _ => True) Table.empty fresh :=
    Relation.ReflTransGen.head (Step.insert Table.empty hj) (steps_addInline hfresh)
  refine ⟨fresh, Table.empty.nextId, movedTo (emptied t id (j.document none)).slots.size id,
    analyze_eq_ok.mpr ⟨j, hj, rfl, hfresh⟩, ?_⟩
  constructor
  case root => exact hroot
  case injective =>
    intro k l hk hl h
    obtain ⟨s, hs⟩ := contains_iff.mp hk
    obtain ⟨s', hs'⟩ := contains_iff.mp hl
    exact mirrors.movedTo_inj hs hs' h
  case copied => exact mirrors.copied
  case onto =>
    exact mirrors.exists_of_within (steps.linked few linked)
      (stepsFresh.linked hfew linked_empty) (hkeep _ hstart) hroot
  case gone =>
    intro k h hlive
    obtain ⟨hk, hnone⟩ := slot?_emptied_of_within linked (j.document none) h
    obtain ⟨s, hs⟩ := contains_iff.mp (contains_of_within h)
    rw [contains, mirrors.kept hk (hlt hs), hnone] at hlive
    cases hlive
  case kept =>
    intro k hlive hk h
    obtain ⟨s, hs⟩ := contains_iff.mp hlive
    rw [mirrors.kept hk (hlt hs)]
    exact slot?_emptied_of_ne linked _ hk h

/-! ## Whether it succeeds -/

/-- The documents inside a page can be added if each of them can be read. -/
theorem exists_addInline_iff (mode : ResolutionMode) {depth : Nat} (positive : 0 < depth)
    {t : Table} {c : DocumentId} {outer : Document} (houter : t.get? c = some outer)
    {children : List InlineDocument} (hchildren : ∀ child ∈ children, child.language ≠ .html) :
    (∃ t', (withFunctions mode).addInline depth t c children = .ok t') ↔
      ∀ child ∈ children, ∃ j, (withFunctions mode).journal outer.url child.language
        child.contents (some child.offset) = .ok j := by
  obtain ⟨depth, rfl⟩ := Nat.exists_eq_add_one.mpr positive
  induction children generalizing t with
  | nil => exact iff_of_true ⟨t, rfl⟩ nofun
  | cons child children ih =>
    obtain ⟨hchild, hrest⟩ := List.forall_mem_cons.mp hchildren
    have addChild_iff : ∀ t₁, (withFunctions mode).addChild depth c t child = .ok t₁ ↔
        ∃ j id, (withFunctions mode).journal outer.url child.language child.contents
          (some child.offset) = .ok j ∧
          t.insertInline c (j.document (some c)) = .ok (t₁, id) := by
      intro t₁
      rw [addChild_eq_ok houter]
      constructor
      · rintro ⟨j, t₂, id, hj, hinsert, hinner⟩
        -- a script or a stylesheet holds nothing, so that there is nothing more to add
        rw [inner_eq_nil_of_ne_html hchild hj, addInline_nil] at hinner
        cases hinner
        exact ⟨j, id, hj, hinsert⟩
      · rintro ⟨j, id, hj, hinsert⟩
        refine ⟨j, t₁, id, hj, hinsert, ?_⟩
        rw [inner_eq_nil_of_ne_html hchild hj, addInline_nil]
    constructor
    · rintro ⟨t', h⟩
      rw [addInline_cons] at h
      obtain ⟨t₁, hadd, h⟩ := bind_eq_ok_iff.mp h
      obtain ⟨j, id, hj, hinsert⟩ := (addChild_iff t₁).mp hadd
      have hothers := (ih (get?_insertInline_of_get? hinsert houter) hrest).mp ⟨t', h⟩
      exact List.forall_mem_cons.mpr ⟨⟨j, hj⟩, hothers⟩
    · intro h
      obtain ⟨⟨j, hj⟩, hothers⟩ := List.forall_mem_cons.mp h
      obtain ⟨t₁, id, hinsert⟩ : ∃ t₁ id, t.insertInline c (j.document (some c)) =
          .ok (t₁, id) := ⟨_, _, insertInline_of_contains _ (contains_of_get? houter)⟩
      obtain ⟨t', ht'⟩ := (ih (get?_insertInline_of_get? hinsert houter) hrest).mpr hothers
      refine ⟨t', ?_⟩
      rw [addInline_cons]
      exact bind_eq_ok_iff.mpr ⟨t₁, (addChild_iff t₁).mpr ⟨j, id, hj, hinsert⟩, ht'⟩

/-- All documents inside the one of a journal can be read. -/
def InnerReadable (a : Analyzer) (url : Path) (j : Journal) : Prop :=
  ∀ child ∈ j.inner, ∃ j', a.journal url child.language child.contents (some child.offset) = .ok j'

section

variable {mode : ResolutionMode} {language : Language} {contents : String} {j : Journal}

theorem innerReadable_of_short {url : Path}
    (hj : (withFunctions mode).journal url language contents none = .ok j)
    (short : Text.byteLength contents.toList < UInt32.size) :
    (withFunctions mode).InnerReadable url j := by
  obtain ⟨j', hj', hinner⟩ := exists_journal mode url language contents
  cases hj.symm.trans hj'
  have hshort : Text.byteLength (SourceFile.ofContent url contents).content.toList < UInt32.size :=
    short
  intro child hchild
  obtain ⟨j', hj', -⟩ := journal_inline hshort mode (hinner child hchild)
  exact ⟨j', hj'⟩

/-- A document can be put where it can be found if all that is inside it can be read. -/
theorem exists_addInline_journal_iff {url : Path}
    (hj : (withFunctions mode).journal url language contents none = .ok j) {t : Table}
    {id : DocumentId} (hplace : t.get? id = some (j.document none)) :
    (∃ t', (withFunctions mode).addInline nestingLimit t id j.inner = .ok t') ↔
      (withFunctions mode).InnerReadable url j := by
  obtain ⟨j', hj', hinner⟩ := exists_journal mode url language contents
  cases hj.symm.trans hj'
  have hurl : (j.document none).url = url := (parsed_of_journal hj).1
  have hadd := exists_addInline_iff mode nestingLimit_pos hplace fun child h => (hinner child h).1
  rw [hurl] at hadd
  exact hadd

theorem exists_analyze_iff {url : Path}
    (hj : (withFunctions mode).journal url language contents none = .ok j) :
    (∃ r, (withFunctions mode).analyze Table.empty url language contents = .ok r) ↔
      (withFunctions mode).InnerReadable url j := by
  have hplace := get?_nextId_empty (j.document none)
  rw [← exists_addInline_journal_iff hj hplace]
  constructor
  · rintro ⟨⟨t', root⟩, h⟩
    obtain ⟨j', hj', -, h⟩ := analyze_eq_ok.mp h
    cases hj.symm.trans hj'
    exact ⟨t', h⟩
  · rintro ⟨t', h⟩
    exact ⟨(t', Table.empty.nextId), analyze_eq_ok.mpr ⟨j, hj, rfl, h⟩⟩

theorem exists_reanalyze_iff {t : Table} {id : DocumentId} {old : Document}
    (hold : t.get? id = some old)
    (hj : (withFunctions mode).journal old.url old.language contents none = .ok j) :
    (∃ t', (withFunctions mode).reanalyze t id contents = .ok t') ↔
      (withFunctions mode).InnerReadable old.url j := by
  have hplace : (emptied t id (j.document none)).get? id = some (j.document none) := by
    obtain ⟨s, hs, -⟩ := Option.map_eq_some_iff.mp hold
    rw [get?, emptied, slot?_setDocument, if_pos rfl, slot?_without,
      if_neg (t.not_mem_inside id), hs]
    rfl
  rw [← exists_addInline_journal_iff hj hplace]
  constructor
  · rintro ⟨t', h⟩
    obtain ⟨j', hj', h⟩ := (reanalyze_eq_ok hold).mp h
    cases hj.symm.trans hj'
    exact ⟨t', h⟩
  · rintro ⟨t', h⟩
    exact ⟨t', (reanalyze_eq_ok hold).mpr ⟨j, hj, h⟩⟩

end

/-- After any session with the scanners of pages and scripts, a document that is not inside
another can be read again wherever it can be read at all, which is always so for fewer than
`2 ^ 32` bytes. The table then has, in its place, a copy of what the new contents give in a
table of their own. A request for a document that is not there is refused. -/
theorem reanalyze_session (mode : ResolutionMode) (calls : List Call) (id : DocumentId)
    (contents : String) :
    let a := withFunctions mode
    let t := a.session Table.empty calls
    (¬ t.contains id → a.perform t (.reanalyze id contents) =
        .error (.noSuchDocument .reanalyze id) ∧ a.after t (.reanalyze id contents) = t) ∧
      ∀ old, t.get? id = some old → t.container? id = none →
        (Text.byteLength contents.toList < UInt32.size →
          ∃ t', a.reanalyze t id contents = .ok t') ∧
        ((∃ t', a.reanalyze t id contents = .ok t') ↔
          ∃ r, a.analyze Table.empty old.url old.language contents = .ok r) ∧
        ∀ t', a.reanalyze t id contents = .ok t' → t'.slots.size ≤ UInt32.size →
          ∃ fresh root ρ, a.analyze Table.empty old.url old.language contents =
            .ok (fresh, root) ∧ t.Replaced id fresh root ρ t' := by
  intro a t
  constructor
  · intro hdead
    have hnone : t.get? id = none := by
      cases hs : t.slot? id with
      | none =>
        rw [get?, hs]
        rfl
      | some s => exact absurd (contains_of_slot? hs) hdead
    have hrefused := reanalyze_of_get?_eq_none (a := a) hnone contents
    refine ⟨hrefused, ?_⟩
    rw [after, perform, hrefused]
  · intro old hold htop
    obtain ⟨j, hj, -⟩ := exists_journal mode old.url old.language contents
    refine ⟨?_, ?_, ?_⟩
    · intro short
      exact (exists_reanalyze_iff hold hj).mpr (innerReadable_of_short hj short)
    · rw [exists_reanalyze_iff hold hj, exists_analyze_iff hj]
    · intro t' h few
      have respects : a.Respects (fun _ _ => True) Table.empty calls :=
        respects_of_forall (fun _ _ => trivial) _ _
      have hfew : t.slots.size ≤ UInt32.size := by
        have steps : a.Steps (fun _ _ => True) t (a.after t (.reanalyze id contents)) :=
          steps_after trivial
        rw [after, perform, h] at steps
        exact Nat.le_trans steps.size_le few
      have linked : t.Linked := (steps_session respects).linked hfew linked_empty
      exact (plain_withFunctions mode).replaced linked hold htop h few

/-- Two pages are read, and one of them loses a script. -/
def pagesRead : List Call :=
  [.analyze ⟨"a.html"⟩ .html "<script>f()</script><style>p {}</style>",
    .analyze ⟨"b.html"⟩ .html "<script>g()</script>",
    .evict ⟨1⟩]

theorem reanalyze_session_pagesRead :
    let a := withFunctions .parallel
    let t := a.session Table.empty pagesRead
    ∃ old t' fresh root ρ, t.get? ⟨0⟩ = some old ∧ t.container? ⟨0⟩ = none ∧
      a.reanalyze t ⟨0⟩ "<script>function h() {}</script>" = .ok t' ∧
      a.analyze Table.empty old.url old.language "<script>function h() {}</script>" =
        .ok (fresh, root) ∧
      t.Replaced ⟨0⟩ fresh root ρ t' ∧ t'.slots.size = 6 := by
  intro a t
  have live : (t.get? ⟨0⟩).isSome := by decide +kernel
  have htop : t.container? ⟨0⟩ = none := by decide +kernel
  have hsize : (a.reanalyze t ⟨0⟩ "<script>function h() {}</script>").map (·.slots.size) =
      .ok 6 := by decide +kernel
  obtain ⟨old, hold⟩ := Option.isSome_iff_exists.mp live
  obtain ⟨t', ht', hsize⟩ := map_eq_ok_iff.mp hsize
  obtain ⟨-, hall⟩ := reanalyze_session .parallel pagesRead ⟨0⟩ "<script>function h() {}</script>"
  obtain ⟨-, -, hreplaced⟩ := hall old hold htop
  obtain ⟨fresh, root, ρ, hfresh, replaced⟩ := hreplaced t' ht' (by rw [hsize]; decide)
  exact ⟨old, t', fresh, root, ρ, hold, htop, ht', hfresh, replaced, hsize⟩

end Analyzer

end PageLint
