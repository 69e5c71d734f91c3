import PageLint.Check.Discovery
import PageLint.Proofs.Text.Bytes

/-!
# The order of paths

Paths are compared by their components, kind by kind and names by their bytes. This is a total
order in which only spellings of one path are equal, so sorting brings them together.
-/

namespace PageLint.Path

open Std (TransCmp LawfulEqCmp)

/-- The name of a component, empty if it has none. -/
def Component.text : Component → String
  | .name s => s
  | _ => ""

theorem Component.compare_eq : Component.compare =
    compareLex (compareOn Component.rank) (compareOn Component.text) := by
  funext a b
  cases a <;> cases b <;> rfl

instance : TransCmp Component.compare := Component.compare_eq ▸ inferInstance

instance : LawfulEqCmp Component.compare where
  compare_self := Std.ReflCmp.compare_self
  eq_of_compare := by
    intro a b h
    rw [Component.compare_eq] at h
    obtain ⟨hrank, htext⟩ := Ordering.then_eq_eq.mp h
    have hrank' : a.rank = b.rank := LawfulEqCmp.eq_of_compare hrank
    have htext' : a.text = b.text := LawfulEqCmp.eq_of_compare htext
    cases a <;> cases b <;> simp_all [Component.rank, Component.text]

theorem compareComponents_eq : compareComponents = List.compareLex Component.compare := by
  funext as bs
  induction as generalizing bs with
  | nil => cases bs <;> rfl
  | cons a as ih =>
    cases bs with
    | nil => rfl
    | cons b bs => rw [compareComponents, List.compareLex_cons_cons, ih]

theorem compare_eq (p q : Path) :
    p.compare q = List.compareLex Component.compare p.components q.components := by
  rw [compare, compareComponents_eq]

instance : TransCmp compare where
  eq_swap := by
    intro p q
    rw [compare_eq, compare_eq]
    exact Std.OrientedCmp.eq_swap
  isLE_trans := by
    intro p q r h h'
    rw [compare_eq] at h h' ⊢
    exact TransCmp.isLE_trans h h'

theorem compare_eq_eq_iff {p q : Path} : p.compare q = .eq ↔ p.Same q := by
  rw [compare_eq]
  exact LawfulEqCmp.compare_eq_iff_eq

/-! ## What comes before -/

/-- The component is of an earlier kind, or of the same kind and its bytes are earlier. -/
def Component.Precedes (a b : Component) : Prop :=
  a.rank < b.rank ∨ a.rank = b.rank ∧ Text.bytes a.text < Text.bytes b.text

/-- The first component in which the paths differ is an earlier one, or there is no more of the
first path. -/
def Precedes (p q : Path) : Prop := List.Lex Component.Precedes p.components q.components

theorem Component.compare_eq_lt_iff {a b : Component} : a.compare b = .lt ↔ a.Precedes b := by
  rw [compare_eq, compareLex, Ordering.then_eq_lt, Precedes, Text.bytes_lt_iff]
  exact or_congr Nat.compare_eq_lt (and_congr Nat.compare_eq_eq compareOfLessAndEq_eq_lt)

theorem compareLex_eq_lt_iff {as bs : List Component} :
    List.compareLex Component.compare as bs = .lt ↔ List.Lex Component.Precedes as bs := by
  induction as generalizing bs with
  | nil => cases bs <;> simp [List.compareLex]
  | cons a as ih =>
    cases bs with
    | nil => simp [List.compareLex]
    | cons b bs =>
      rw [List.compareLex_cons_cons, Ordering.then_eq_lt, List.cons_lex_cons_iff, ih,
        Component.compare_eq_lt_iff, LawfulEqCmp.compare_eq_iff_eq]

theorem compare_eq_lt_iff {p q : Path} : p.compare q = .lt ↔ p.Precedes q := by
  rw [compare_eq]
  exact compareLex_eq_lt_iff

/-! ## Sorting -/

/-- Of sorted paths, those that are kept come in strict order. -/
theorem pairwise_after {last : Path} {ps : List Path}
    (h : (last :: ps).Pairwise fun p q => (p.compare q).isLE) :
    (last :: withoutRepeats.after last ps).Pairwise fun p q => p.compare q = .lt := by
  induction ps generalizing last with
  | nil => exact List.pairwise_singleton _ _
  | cons p ps ih =>
    obtain ⟨hlast, hps⟩ := List.pairwise_cons.mp h
    rw [withoutRepeats.after]
    split
    · exact ih (h.sublist ((List.sublist_cons_self p ps).cons_cons last))
    · next hsame =>
      have hlt : last.compare p = .lt := by
        have hle := hlast p List.mem_cons_self
        have hne := mt compare_eq_eq_iff.mp hsame
        cases hcompare : last.compare p with
        | lt => rfl
        | eq => exact absurd hcompare hne
        | gt =>
          rw [hcompare] at hle
          cases hle
      have hkept := ih hps
      refine List.pairwise_cons.mpr ⟨List.forall_mem_cons.mpr ⟨hlt, ?_⟩, hkept⟩
      intro q hq
      exact TransCmp.lt_trans hlt ((List.pairwise_cons.mp hkept).1 q hq)

theorem pairwise_sorted (ps : List Path) :
    (sorted ps).Pairwise fun p q => p.compare q = .lt := by
  have htotal (p q : Path) : ((p.compare q).isLE || (q.compare p).isLE) = true := by
    rw [show q.compare p = (p.compare q).swap from Std.OrientedCmp.eq_swap]
    cases p.compare q <;> rfl
  have hsorted : (ps.mergeSort fun p q => (p.compare q).isLE).Pairwise
      fun p q => (p.compare q).isLE :=
    List.pairwise_mergeSort (fun _ _ _ => TransCmp.isLE_trans) htotal ps
  rw [sorted]
  cases hps : ps.mergeSort fun p q => (p.compare q).isLE with
  | nil => exact List.Pairwise.nil
  | cons p ps =>
    rw [hps] at hsorted
    exact pairwise_after hsorted

theorem after_of_pairwise {last : Path} {ps : List Path} (h : (last :: ps).Pairwise Precedes) :
    withoutRepeats.after last ps = ps := by
  induction ps generalizing last with
  | nil => rfl
  | cons p ps ih =>
    obtain ⟨hlast, hps⟩ := List.pairwise_cons.mp h
    have hne : ¬ last.Same p := by
      intro hsame
      have hlt := compare_eq_lt_iff.mpr (hlast p List.mem_cons_self)
      rw [compare_eq_eq_iff.mpr hsame] at hlt
      cases hlt
    rw [withoutRepeats.after, if_neg hne, ih hps]

/-- Paths that are in strict order stay as they are. -/
theorem sorted_of_pairwise {ps : List Path} (h : ps.Pairwise Precedes) : sorted ps = ps := by
  have hle : ps.Pairwise fun p q => (p.compare q).isLE := by
    refine h.imp fun hprecedes => ?_
    rw [compare_eq_lt_iff.mpr hprecedes]
    rfl
  rw [sorted, List.mergeSort_of_pairwise hle]
  cases ps with
  | nil => rfl
  | cons p ps => rw [withoutRepeats, after_of_pairwise h]

theorem after_sublist (last : Path) (ps : List Path) :
    (withoutRepeats.after last ps).Sublist ps := by
  induction ps generalizing last with
  | nil => exact List.Sublist.slnil
  | cons p ps ih =>
    rw [withoutRepeats.after]
    split
    · exact (ih last).cons p
    · exact (ih p).cons_cons p

/-- What is left out after a path is the same as one that is kept. -/
theorem exists_same_after {last r : Path} {ps : List Path} :
    (∃ q ∈ last :: withoutRepeats.after last ps, q.Same r) ↔ ∃ q ∈ last :: ps, q.Same r := by
  induction ps generalizing last with
  | nil => rfl
  | cons p ps ih =>
    rw [withoutRepeats.after]
    split
    · next hsame =>
      rw [ih]
      simp only [List.mem_cons, exists_eq_or_imp]
      refine ⟨Or.imp_right Or.inr, ?_⟩
      rintro (h | h | h)
      · exact Or.inl h
      · exact Or.inl (hsame.trans h)
      · exact Or.inr h
    · have hkept := @ih p
      simp only [List.mem_cons, exists_eq_or_imp] at hkept ⊢
      rw [hkept]

theorem mem_of_mem_sorted {p : Path} {ps : List Path} (h : p ∈ sorted ps) : p ∈ ps := by
  rw [sorted] at h
  rw [← List.mem_mergeSort]
  cases hps : ps.mergeSort fun p q => (p.compare q).isLE with
  | nil =>
    rw [hps] at h
    cases h
  | cons first rest =>
    rw [hps] at h
    exact ((after_sublist first rest).cons_cons first).subset h

/-- Sorting keeps every path up to spelling. -/
theorem exists_same_sorted {r : Path} {ps : List Path} :
    (∃ q ∈ sorted ps, q.Same r) ↔ ∃ q ∈ ps, q.Same r := by
  have hmem : (∃ q ∈ ps, q.Same r) ↔
      ∃ q ∈ ps.mergeSort fun p q => (p.compare q).isLE, q.Same r := by
    simp only [List.mem_mergeSort]
  rw [hmem, sorted]
  cases ps.mergeSort fun p q => (p.compare q).isLE with
  | nil => rfl
  | cons first rest => exact exists_same_after

end PageLint.Path
