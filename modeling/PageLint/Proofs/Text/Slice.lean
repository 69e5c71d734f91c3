import Mathlib.Data.List.TakeWhile
import PageLint.Text.Basic

/-!
# Pieces of a text

Where a piece of a text stands, in bytes, and how many line feeds and characters
come before a place in it. A byte offset is a boundary if no character of the
text covers it.
-/

namespace PageLint.Text

/-- `part` stands in `cs` from byte `k` on. -/
def StandsAt (cs : List Char) (k : Nat) (part : List Char) : Prop :=
  ∃ pre post, cs = pre ++ part ++ post ∧ byteLength pre = k

/-- Byte `k` of `cs` is the first one of a character, or the end. -/
def IsBoundary (cs : List Char) (k : Nat) : Prop :=
  ∃ pre post, cs = pre ++ post ∧ byteLength pre = k

theorem StandsAt.isBoundary {cs part : List Char} {k : Nat} (h : StandsAt cs k part) :
    IsBoundary cs k := by
  obtain ⟨pre, post, rfl, hk⟩ := h
  exact ⟨pre, part ++ post, List.append_assoc _ _ _, hk⟩

/-- A boundary of a piece of a text is one of the text. -/
theorem StandsAt.isBoundary_add {cs part : List Char} {k n : Nat} (h : StandsAt cs k part)
    (hn : IsBoundary part n) : IsBoundary cs (k + n) := by
  obtain ⟨pre, post, rfl, rfl⟩ := h
  obtain ⟨before, after, rfl, rfl⟩ := hn
  refine ⟨pre ++ before, after ++ post, ?_, byteLength_append pre before⟩
  simp only [List.append_assoc]

theorem IsBoundary.le_byteLength {cs : List Char} {k : Nat} (h : IsBoundary cs k) :
    k ≤ byteLength cs := by
  obtain ⟨pre, post, rfl, rfl⟩ := h
  rw [byteLength_append]
  exact Nat.le_add_right _ _

theorem eq_nil_of_byteLength_eq_zero {cs : List Char} (h : byteLength cs = 0) : cs = [] := by
  have := length_le_byteLength cs
  exact List.eq_nil_of_length_eq_zero (by omega)

/-- Beginnings of a text with as many bytes are the same. -/
theorem append_inj_of_byteLength {pre pre' post post' : List Char}
    (h : pre ++ post = pre' ++ post') (hbytes : byteLength pre = byteLength pre') :
    pre = pre' ∧ post = post' := by
  rcases List.append_eq_append_iff.mp h with ⟨mid, rfl, rfl⟩ | ⟨mid, rfl, rfl⟩
  · rw [byteLength_append] at hbytes
    obtain rfl := eq_nil_of_byteLength_eq_zero (Nat.left_eq_add.mp hbytes)
    exact ⟨(List.append_nil pre).symm, rfl⟩
  · rw [byteLength_append] at hbytes
    obtain rfl := eq_nil_of_byteLength_eq_zero (Nat.add_eq_left.mp hbytes)
    exact ⟨List.append_nil pre', rfl⟩

theorem all_ne_of_not_mem {c : Char} {cs : List Char} (h : c ∉ cs) :
    ∀ x ∈ cs, decide (x ≠ c) = true := by
  intro x hx
  rw [decide_eq_true_eq]
  rintro rfl
  exact h hx

/-! ## Lines and columns -/

/-- The number of characters after the last line feed. -/
def column (cs : List Char) : Nat := (cs.reverse.takeWhile (· ≠ '\n')).length

theorem column_le_length (cs : List Char) : column cs ≤ cs.length := by
  have h := (List.takeWhile_prefix (fun c => decide (c ≠ '\n')) (l := cs.reverse)).length_le
  rwa [List.length_reverse] at h

theorem column_of_not_mem {cs : List Char} (h : '\n' ∉ cs) : column cs = cs.length := by
  have hall := all_ne_of_not_mem (mt List.mem_reverse.mp h)
  rw [column, List.takeWhile_eq_self_iff.mpr hall, List.length_reverse]

theorem column_append_of_not_mem (cs : List Char) {ds : List Char} (h : '\n' ∉ ds) :
    column (cs ++ ds) = column cs + ds.length := by
  have hall := all_ne_of_not_mem (mt List.mem_reverse.mp h)
  rw [column, List.reverse_append, List.takeWhile_append_of_pos hall, List.length_append,
    List.length_reverse, Nat.add_comm]
  rfl

theorem column_append_of_mem (cs : List Char) {ds : List Char} (h : '\n' ∈ ds) :
    column (cs ++ ds) = column ds := by
  have hne : ¬ (ds.reverse.takeWhile (· ≠ '\n')).length = ds.reverse.length := by
    intro hlen
    have hself := (List.takeWhile_prefix _).eq_of_length hlen
    have := List.takeWhile_eq_self_iff.mp hself '\n' (List.mem_reverse.mpr h)
    simp at this
  rw [column, List.reverse_append, List.takeWhile_append, if_neg hne]
  rfl

theorem column_append_lineFeed (cs ds : List Char) : column (cs ++ '\n' :: ds) = column ds := by
  rw [column_append_of_mem cs List.mem_cons_self]
  by_cases h : '\n' ∈ ds
  · exact column_append_of_mem ['\n'] h
  · rw [column_of_not_mem h]
    exact (column_append_of_not_mem ['\n'] h).trans (Nat.zero_add _)

end PageLint.Text
