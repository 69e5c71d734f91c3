import PageLint.Check.Run
import PageLint.Proofs.Source.Order
import PageLint.Proofs.Source.Paths

/-!
# The order of a report

A report lists the warnings of an analysis by file and start, those without a range first. Paths
that are spelled differently may be the same file, so the comparison is a total preorder only:
warnings at one place stay in the order of the analysis.
-/

namespace PageLint

open Std (TransCmp OrientedCmp)

/-! ## Comparing places -/

instance : Std.TransOrd Position :=
  Std.TransOrd.compareOfLessAndEq_of_antisymm_of_trans_of_total_of_not_le Position.le_antisymm
    Position.le_trans Position.le_total Position.not_le

namespace SourceRange

/-- Compares ranges by file and start. -/
def compareStarts : SourceRange → SourceRange → Ordering :=
  compareLex (fun r s => r.file.compare s.file) (compareOn start)

instance : TransCmp fun r s : SourceRange => r.file.compare s.file where
  eq_swap := OrientedCmp.eq_swap
  isLE_trans := TransCmp.isLE_trans

instance : TransCmp compareStarts := inferInstanceAs (TransCmp (compareLex _ _))

variable {r s : SourceRange}

theorem compareStarts_eq_lt_iff : r.compareStarts s = .lt ↔
    r.file.Precedes s.file ∨ r.file.Same s.file ∧ r.start < s.start := by
  rw [compareStarts, compareLex, Ordering.then_eq_lt, Path.compare_eq_lt_iff,
    Path.compare_eq_eq_iff]
  exact or_congr_right (and_congr_right' compareOfLessAndEq_eq_lt)

theorem compareStarts_eq_eq_iff : r.compareStarts s = .eq ↔
    r.file.Same s.file ∧ r.start = s.start := by
  rw [compareStarts, compareLex, Ordering.then_eq_eq, Path.compare_eq_eq_iff]
  exact and_congr_right' (compareOfLessAndEq_eq_eq Position.le_refl Position.not_le)

end SourceRange

namespace Warning

/-- Where a warning starts, if it has a range: the file, up to spelling, and the position. -/
def place? (w : Warning) : Option (List Path.Component × Position) :=
  w.range.map fun range => (range.file.components, range.start)

/-- Both warnings are without a range, or they start at one position of one file. -/
def SamePlace (w v : Warning) : Prop := w.place? = v.place?

instance (w v : Warning) : Decidable (w.SamePlace v) := inferInstanceAs (Decidable (_ = _))

/-- Only the second warning has a range, or the first one's is in an earlier file, or it starts
earlier in the same file. -/
def PlacedBefore (w v : Warning) : Prop :=
  match w.range, v.range with
  | none, some _ => True
  | some r, some s => r.file.Precedes s.file ∨ r.file.Same s.file ∧ r.start < s.start
  | _, none => False

instance : TransCmp comparePlaces where
  eq_swap := by
    intro w v
    unfold comparePlaces
    cases w.range with
    | none => cases v.range <;> rfl
    | some r =>
      cases v.range with
      | none => rfl
      | some s => exact @OrientedCmp.eq_swap _ SourceRange.compareStarts _ r s
  isLE_trans := by
    intro w v u h h'
    unfold comparePlaces at h h' ⊢
    generalize w.range = r?, v.range = s?, u.range = t? at h h' ⊢
    match r?, s?, t? with
    | none, _, none => rfl
    | none, _, some _ => rfl
    | some _, none, _ => cases h
    | some _, some _, none => cases h'
    | some r, some s, some t => exact @TransCmp.isLE_trans _ SourceRange.compareStarts _ r s t h h'

variable {w v : Warning}

theorem comparePlaces_eq_lt_iff : w.comparePlaces v = .lt ↔ w.PlacedBefore v := by
  unfold comparePlaces PlacedBefore
  cases w.range with
  | none => cases v.range <;> simp
  | some r =>
    cases v.range with
    | none => simp
    | some s => exact SourceRange.compareStarts_eq_lt_iff

theorem comparePlaces_eq_eq_iff : w.comparePlaces v = .eq ↔ w.SamePlace v := by
  unfold comparePlaces SamePlace place?
  cases w.range with
  | none => cases v.range <;> simp
  | some r =>
    cases v.range with
    | none => simp
    | some s =>
      rw [Option.map_some, Option.map_some, Option.some_inj, Prod.mk.injEq]
      exact SourceRange.compareStarts_eq_eq_iff

theorem isLE_comparePlaces_iff :
    (w.comparePlaces v).isLE ↔ w.PlacedBefore v ∨ w.SamePlace v := by
  rw [Ordering.isLE_iff_eq_lt_or_eq_eq, comparePlaces_eq_lt_iff, comparePlaces_eq_eq_iff]

/-! ## Sorting -/

theorem isLE_comparePlaces_total (w v : Warning) :
    ((w.comparePlaces v).isLE || (v.comparePlaces w).isLE) = true := by
  rw [show v.comparePlaces w = (w.comparePlaces v).swap from OrientedCmp.eq_swap]
  cases w.comparePlaces v <;> rfl

/-- Warnings at one place stay in order. -/
theorem filter_sorted (ws : List Warning) (w : Warning) :
    (sorted ws).filter (w.SamePlace ·) = ws.filter (w.SamePlace ·) := by
  have htrans (a b c : Warning) (h : (a.comparePlaces b).isLE) (h' : (b.comparePlaces c).isLE) :
      (a.comparePlaces c).isLE := TransCmp.isLE_trans h h'
  have hplace : (ws.filter (w.SamePlace ·)).Pairwise fun a b => (a.comparePlaces b).isLE := by
    refine List.pairwise_of_forall_mem_list fun a ha b hb => ?_
    have ha' : w.SamePlace a := of_decide_eq_true (List.mem_filter.mp ha).2
    have hb' : w.SamePlace b := of_decide_eq_true (List.mem_filter.mp hb).2
    exact isLE_comparePlaces_iff.mpr (Or.inr (ha'.symm.trans hb'))
  have hsub : (ws.filter (w.SamePlace ·)).Sublist (sorted ws) :=
    List.sublist_mergeSort htrans isLE_comparePlaces_total hplace List.filter_sublist
  have hfilter := hsub.filter (w.SamePlace ·)
  rw [List.filter_filter] at hfilter
  simp only [Bool.and_self] at hfilter
  exact (hfilter.eq_of_length ((List.mergeSort_perm ws _).filter _).length_eq.symm).symm

theorem pairwise_sorted (ws : List Warning) :
    (sorted ws).Pairwise fun w v => w.PlacedBefore v ∨ w.SamePlace v := by
  have hsorted := List.pairwise_mergeSort (fun _ _ _ => TransCmp.isLE_trans)
    isLE_comparePlaces_total ws
  exact hsorted.imp isLE_comparePlaces_iff.mp

/-- The warnings of a report are those of the analysis, ordered by file and start, those without a
range first, and those at one place in the order of the analysis. -/
theorem sorted_stable (analysis : Analysis) :
    (sorted analysis.table.warnings).Perm analysis.table.warnings ∧
      (sorted analysis.table.warnings).Pairwise (fun w v => w.PlacedBefore v ∨ w.SamePlace v) ∧
      ∀ w : Warning, (sorted analysis.table.warnings).filter (w.SamePlace ·) =
        analysis.table.warnings.filter (w.SamePlace ·) :=
  ⟨List.mergeSort_perm _ _, pairwise_sorted _, filter_sorted _⟩

end Warning

end PageLint
