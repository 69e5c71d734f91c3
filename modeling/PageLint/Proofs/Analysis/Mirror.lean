import PageLint.Proofs.Analysis.Findings
import PageLint.Proofs.Analysis.Session

/-!
# Adding the same documents to two tables

What an analyzer adds to a table depends on the table by the ids alone. So when the
documents inside one document are added to a table of its own and to another table, the
second gets a copy of what the first gets, with other ids.
-/

namespace PageLint

/-! ## Other ids -/

/-- The feature with the document that it names, if it names one, under another id. -/
def Feature.renamed (ρ : DocumentId → DocumentId) (f : Feature) : Feature :=
  match f.payload with
  | .backreference container => { f with payload := .backreference (ρ container) }
  | _ => f

def Document.renamed (ρ : DocumentId → DocumentId) (d : Document) : Document :=
  { d with features := d.features.map (Feature.renamed ρ) }

def Slot.renamed (ρ : DocumentId → DocumentId) (s : Slot) : Slot :=
  ⟨s.document.renamed ρ, s.container.map ρ, s.children.map ρ⟩

theorem Feature.renamed_of_container?_eq_none {f : Feature} (h : f.container? = none)
    (ρ : DocumentId → DocumentId) : f.renamed ρ = f := by
  unfold Feature.renamed
  split
  · next hpayload =>
    rw [Feature.container?, hpayload] at h
    cases h
  · rfl

theorem Journal.renamed_document {j : Journal}
    (plain : ∀ f ∈ j.resolution.features, f.container? = none) (container : Option DocumentId)
    (ρ : DocumentId → DocumentId) :
    (j.document container).renamed ρ = j.document (container.map ρ) := by
  have hrest : j.resolution.features.map (Feature.renamed ρ) = j.resolution.features :=
    (List.map_congr_left fun f hf => f.renamed_of_container?_eq_none (plain f hf) ρ).trans
      (List.map_id' _)
  rw [Document.renamed, Journal.document, List.map_append, hrest]
  cases container with
  | none => rfl
  | some p => rfl

namespace Table

/-- The id of a document of a table of its own in a table that had `n` slots before: the first
one has taken the place of `id`, all others follow each other in new slots. -/
def movedTo (n : Nat) (id k : DocumentId) : DocumentId :=
  if k.index.toNat = 0 then id else Arena.idOf (n + k.index.toNat - 1)

theorem movedTo_cases {n : Nat} {k : DocumentId} (h : n + k.index.toNat ≤ UInt32.size)
    (id : DocumentId) : k.index.toNat = 0 ∧ movedTo n id k = id ∨
      k.index.toNat ≠ 0 ∧ (movedTo n id k).index.toNat = n + k.index.toNat - 1 := by
  rw [movedTo]
  split
  · next hk => exact Or.inl ⟨hk, rfl⟩
  · next hk => exact Or.inr ⟨hk, Arena.index_idOf (ι := DocumentId) (by omega)⟩

/-- The second table holds what was in `base`, and a copy of the first table that starts at
`id`. -/
structure Mirrors (base : Table) (id : DocumentId) (fresh t : Table) : Prop where
  root : id.index.toNat < base.slots.size
  pos : 0 < fresh.slots.size
  size : t.slots.size + 1 = base.slots.size + fresh.slots.size
  fits : t.slots.size ≤ UInt32.size
  copied {k : DocumentId} {s : Slot} (hs : fresh.slot? k = some s) :
    t.slot? (movedTo base.slots.size id k) = some (s.renamed (movedTo base.slots.size id))
  kept {k : DocumentId} (hk : k ≠ id) (hold : k.index.toNat < base.slots.size) :
    t.slot? k = base.slot? k

namespace Mirrors

variable {base fresh t : Table} {id : DocumentId} (mirrors : Mirrors base id fresh t)

include mirrors

theorem movedTo_cases {k : DocumentId} {s : Slot} (hs : fresh.slot? k = some s) :
    k.index.toNat = 0 ∧ movedTo base.slots.size id k = id ∨ k.index.toNat ≠ 0 ∧
      (movedTo base.slots.size id k).index.toNat = base.slots.size + k.index.toNat - 1 := by
  have hlt := index_lt_of_slot? hs
  have hsize := mirrors.size
  have hfits := mirrors.fits
  exact Table.movedTo_cases (by omega) id

theorem movedTo_inj {k l : DocumentId} {s s' : Slot} (hk : fresh.slot? k = some s)
    (hl : fresh.slot? l = some s')
    (h : movedTo base.slots.size id k = movedTo base.slots.size id l) : k = l := by
  have hroot := mirrors.root
  have hindex := congrArg (fun i => i.index.toNat) h
  have heq : k.index.toNat = l.index.toNat := by
    rcases mirrors.movedTo_cases hk with ⟨hk0, hkid⟩ | ⟨hk0, hki⟩
    · rcases mirrors.movedTo_cases hl with ⟨hl0, -⟩ | ⟨hl0, hli⟩
      · rw [hk0, hl0]
      · simp only [hkid, hli] at hindex
        omega
    · rcases mirrors.movedTo_cases hl with ⟨hl0, hlid⟩ | ⟨hl0, hli⟩
      · simp only [hki, hlid] at hindex
        omega
      · simp only [hki, hli] at hindex
        omega
  rw [← DocumentId.index_inj, ← UInt32.toNat_inj, heq]

theorem get?_movedTo {k : DocumentId} {d : Document} (hd : fresh.get? k = some d) :
    t.get? (movedTo base.slots.size id k) = some (d.renamed (movedTo base.slots.size id)) := by
  obtain ⟨s, hs, rfl⟩ := Option.map_eq_some_iff.mp hd
  rw [get?, mirrors.copied hs]
  rfl

theorem nextId_eq (hfit : t.slots.size < UInt32.size) :
    t.nextId = movedTo base.slots.size id fresh.nextId := by
  have hroot := mirrors.root
  have hpos := mirrors.pos
  have hsize := mirrors.size
  have hnext : fresh.nextId.index.toNat = fresh.slots.size := index_nextId (by omega)
  rw [movedTo, if_neg (by omega), hnext, nextId]
  congr 1
  omega

theorem not_old {k : DocumentId} {s : Slot} (hs : fresh.slot? k = some s) {l : DocumentId}
    (hl : l ≠ id) (hold : l.index.toNat < base.slots.size) :
    l ≠ movedTo base.slots.size id k := by
  rintro rfl
  rcases mirrors.movedTo_cases hs with ⟨-, hid⟩ | ⟨hk0, hindex⟩
  · exact hl hid
  · omega

/-- A document that is added to both tables at corresponding places. -/
theorem insertInline {fresh' t' : Table} {c k l : DocumentId} {d : Document}
    (hfresh : fresh.insertInline c d = .ok (fresh', k))
    (ht : t.insertInline (movedTo base.slots.size id c)
      (d.renamed (movedTo base.slots.size id)) = .ok (t', l))
    (few : t'.slots.size ≤ UInt32.size) :
    l = movedTo base.slots.size id k ∧ Mirrors base id fresh' t' := by
  have hroot := mirrors.root
  have hpos := mirrors.pos
  have hsize := mirrors.size
  have hsizet := size_slots_insertInline ht
  have hsizefresh := size_slots_insertInline hfresh
  have hfit : t.slots.size < UInt32.size := by omega
  have hfitfresh : fresh.slots.size < UInt32.size := by omega
  obtain ⟨hc, rfl⟩ := insertInline_eq_ok hfresh
  obtain ⟨-, rfl⟩ := insertInline_eq_ok ht
  have hnext := mirrors.nextId_eq hfit
  obtain ⟨sc, hsc⟩ := contains_iff.mp hc
  refine ⟨hnext, hroot, by omega, by omega, few, ?_, ?_⟩
  · intro k s hs
    rw [slot?_insertInline hfitfresh hfresh] at hs
    rw [slot?_insertInline hfit ht]
    split at hs
    · next hk =>
      cases hs
      rw [hk, hnext, if_pos rfl]
      rfl
    · split at hs
      · next hk =>
        obtain ⟨old, hold, rfl⟩ := Option.map_eq_some_iff.mp hs
        have hcopied := mirrors.copied hold
        rw [hk, if_neg (ne_nextId_of_slot? hfit hcopied), if_pos rfl, hcopied, hnext]
        simp [Slot.renamed, Slot.addChild]
      · next hk =>
        have hcopied := mirrors.copied hs
        rw [if_neg (ne_nextId_of_slot? hfit hcopied),
          if_neg fun h => hk (mirrors.movedTo_inj hs hsc h)]
        exact hcopied
  · intro k hk hold
    have hne : k ≠ t.nextId := by
      rintro rfl
      rw [index_nextId hfit] at hold
      omega
    rw [slot?_insertInline hfit ht, if_neg hne, if_neg (mirrors.not_old hsc hk hold)]
    exact mirrors.kept hk hold

end Mirrors

end Table

namespace Analyzer

variable {a : Analyzer}

/-- What is added down to a depth inside a document of the second table is added inside the
corresponding document of the first. -/
def Copies (a : Analyzer) (depth : Nat) (base : Table) (id : DocumentId) : Prop :=
  ∀ {fresh t t' : Table} {c : DocumentId} {children : List InlineDocument},
    Table.Mirrors base id fresh t → fresh.contains c →
    a.addInline depth t (Table.movedTo base.slots.size id c) children = .ok t' →
    t'.slots.size ≤ UInt32.size →
    ∃ fresh', a.addInline depth fresh c children = .ok fresh' ∧ Table.Mirrors base id fresh' t' ∧
      ∀ k, fresh.contains k → fresh'.contains k

theorem Plain.copies_addChild (plain : a.Plain) {base fresh t t' : Table} {id c : DocumentId}
    {depth : Nat} (copies : a.Copies depth base id) (mirrors : Table.Mirrors base id fresh t)
    (hc : fresh.contains c) {child : InlineDocument}
    (h : a.addChild depth (Table.movedTo base.slots.size id c) t child = .ok t')
    (few : t'.slots.size ≤ UInt32.size) :
    ∃ fresh', a.addChild depth c fresh child = .ok fresh' ∧ Table.Mirrors base id fresh' t' ∧
      ∀ k, fresh.contains k → fresh'.contains k := by
  obtain ⟨s, hs⟩ := Table.contains_iff.mp hc
  have houter : fresh.get? c = some s.document := Option.map_eq_some_iff.mpr ⟨s, hs, rfl⟩
  obtain ⟨j, t₁, l, hj, hinsert, hinner⟩ := (addChild_eq_ok (mirrors.get?_movedTo houter)).mp h
  have hrenamed := Journal.renamed_document (plain.features hj) (some c)
    (Table.movedTo base.slots.size id)
  -- the document of the copy differs in its link alone
  rw [Option.map_some] at hrenamed
  rw [← hrenamed] at hinsert
  have steps : a.Steps (fun _ _ => True) t₁ t' := steps_addInline hinner
  have hfew := Nat.le_trans steps.size_le few
  obtain ⟨fresh₁, k, hfresh⟩ : ∃ fresh₁ k, fresh.insertInline c (j.document (some c)) =
      .ok (fresh₁, k) := ⟨_, _, Table.insertInline_of_contains _ hc⟩
  have hsizet := Table.size_slots_insertInline hinsert
  have hfit : fresh.slots.size < UInt32.size := by
    have hsize := mirrors.size
    have hroot := mirrors.root
    omega
  obtain ⟨rfl, mirrors₁⟩ := mirrors.insertInline hfresh hinsert hfew
  have hnew : fresh₁.contains k := by
    rw [Table.contains, Table.slot?_insertInline hfit hfresh, if_pos rfl]
    rfl
  obtain ⟨fresh', hadd, mirrors', hkeep⟩ := copies mirrors₁ hnew hinner few
  refine ⟨fresh', (addChild_eq_ok houter).mpr ⟨j, fresh₁, k, hj, hfresh, hadd⟩, mirrors', ?_⟩
  exact fun k hk => hkeep k (Table.contains_insertInline_of_contains hfit hfresh hk)

theorem Plain.copies (plain : a.Plain) (depth : Nat) (base : Table) (id : DocumentId) :
    a.Copies depth base id := by
  induction depth with
  | zero =>
    intro fresh t t' c children mirrors hc h few
    cases children with
    | nil =>
      cases h
      exact ⟨fresh, rfl, mirrors, fun _ hk => hk⟩
    | cons child children => cases h
  | succ depth ihdepth =>
    intro fresh t t' c children mirrors hc h few
    induction children generalizing fresh t with
    | nil =>
      cases h
      exact ⟨fresh, rfl, mirrors, fun _ hk => hk⟩
    | cons child children ihchildren =>
      rw [addInline_cons] at h
      obtain ⟨t₁, hchild, h⟩ := bind_eq_ok_iff.mp h
      have steps : a.Steps (fun _ _ => True) t₁ t' := steps_addInline h
      have hfew := Nat.le_trans steps.size_le few
      obtain ⟨fresh₁, hadd, mirrors₁, hkeep₁⟩ :=
        plain.copies_addChild ihdepth mirrors hc hchild hfew
      obtain ⟨fresh', hadd', mirrors', hkeep⟩ := ihchildren mirrors₁ (hkeep₁ c hc) h
      refine ⟨fresh', ?_, mirrors', fun k hk => hkeep k (hkeep₁ k hk)⟩
      rw [addInline_cons]
      exact bind_eq_ok_iff.mpr ⟨fresh₁, hadd, hadd'⟩

end Analyzer

end PageLint
