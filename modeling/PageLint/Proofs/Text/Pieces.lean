import Mathlib.Data.List.Basic
import Mathlib.Data.List.TakeWhile
import PageLint.Text.Basic

/-!
# The pieces between signs

A text that is cut at a sign has the sign in none of its pieces. Where two texts meet, the
last piece of the one and the first piece of the other become one.
-/

namespace PageLint.Text

theorem not_mem_of_mem_splitOn {sign : Char} {cs piece : List Char} (h : piece ∈ cs.splitOn sign) :
    sign ∉ piece := by
  induction cs generalizing piece with
  | nil => simp_all
  | cons c cs ih =>
    rw [List.splitOn_cons_eq_if_modifyHead] at h
    split at h
    · rcases List.mem_cons.mp h with rfl | h
      · exact List.not_mem_nil
      · exact ih h
    · next hc =>
      cases hpieces : cs.splitOn sign with
      | nil => exact absurd hpieces (List.splitOn_ne_nil _ _)
      | cons first rest =>
        rw [hpieces, List.modifyHead_cons] at h
        rcases List.mem_cons.mp h with rfl | h
        · have hfirst := ih (hpieces ▸ List.mem_cons_self)
          intro hmem
          rcases List.mem_cons.mp hmem with heq | hmem
          · exact hc (beq_iff_eq.mpr heq.symm)
          · exact hfirst hmem
        · exact ih (hpieces ▸ List.mem_cons_of_mem _ h)

theorem intercalate_append_intercalate (sign : Char) (before : List (List Char))
    (last first : List Char) (after : List (List Char)) :
    [sign].intercalate (before ++ [last]) ++ [sign].intercalate (first :: after) =
      [sign].intercalate (before ++ (last ++ first) :: after) := by
  induction before with
  | nil =>
    cases after with
    | nil => simp
    | cons second after => simp [List.intercalate_cons_cons]
  | cons piece before ih =>
    have hcons : ∀ pieces : List (List Char), pieces ≠ [] →
        [sign].intercalate (piece :: pieces) = piece ++ [sign] ++ [sign].intercalate pieces := by
      intro pieces hne
      obtain ⟨second, pieces, rfl⟩ := List.exists_cons_of_ne_nil hne
      exact List.intercalate_cons_cons
    rw [List.cons_append, hcons _ (by simp), List.append_assoc, ih, List.cons_append,
      hcons _ (by simp)]

/-- The pieces of two texts, one behind the other. -/
theorem splitOn_append {sign : Char} {cs ds : List Char} {before after : List (List Char)}
    {last first : List Char} (hcs : cs.splitOn sign = before ++ [last])
    (hds : ds.splitOn sign = first :: after) :
    (cs ++ ds).splitOn sign = before ++ (last ++ first) :: after := by
  have hcs' : ∀ piece ∈ before ++ [last], sign ∉ piece :=
    fun piece h => not_mem_of_mem_splitOn (hcs.symm ▸ h)
  have hds' : ∀ piece ∈ first :: after, sign ∉ piece :=
    fun piece h => not_mem_of_mem_splitOn (hds.symm ▸ h)
  obtain ⟨hbefore, hlast⟩ := List.forall_mem_append.mp hcs'
  obtain ⟨hfirst, hafter⟩ := List.forall_mem_cons.mp hds'
  have hmeet : sign ∉ last ++ first := by
    rw [List.mem_append, not_or]
    exact ⟨hlast last List.mem_cons_self, hfirst⟩
  have hpieces : ∀ piece ∈ before ++ (last ++ first) :: after, sign ∉ piece :=
    List.forall_mem_append.mpr ⟨hbefore, List.forall_mem_cons.mpr ⟨hmeet, hafter⟩⟩
  have htext : cs ++ ds = [sign].intercalate (before ++ (last ++ first) :: after) := by
    rw [← intercalate_append_intercalate, ← hcs, ← hds, List.intercalate_splitOn,
      List.intercalate_splitOn]
  rw [htext, List.splitOn_intercalate sign hpieces (by simp)]

/-- A sign between two texts keeps their pieces apart. -/
theorem splitOn_append_cons (sign : Char) (cs ds : List Char) :
    (cs ++ sign :: ds).splitOn sign = cs.splitOn sign ++ ds.splitOn sign := by
  obtain ⟨before, last, hcs⟩ :=
    (List.eq_nil_or_concat' (cs.splitOn sign)).resolve_left (List.splitOn_ne_nil _ _)
  have hds : (sign :: ds).splitOn sign = [] :: ds.splitOn sign := by
    rw [List.splitOn_cons_eq_if_modifyHead, if_pos (beq_self_eq_true sign)]
  rw [splitOn_append hcs hds, hcs, List.append_nil, List.append_assoc, List.singleton_append]

theorem splitOn_of_not_mem {sign : Char} {cs : List Char} (h : sign ∉ cs) :
    cs.splitOn sign = [cs] := by
  have hpieces : ∀ piece ∈ [cs], sign ∉ piece := List.forall_mem_singleton.mpr h
  simpa using List.splitOn_intercalate sign hpieces (List.cons_ne_nil _ _)

/-! ## Up to the last sign -/

theorem throughLast_eq_nil_iff {mark : Char} {cs : List Char} :
    throughLast mark cs = [] ↔ mark ∉ cs := by
  rw [throughLast, List.reverse_eq_nil_iff, List.dropWhile_eq_nil_iff]
  constructor
  · intro h hmark
    simpa using h mark (List.mem_reverse.mpr hmark)
  · intro h c hc
    apply decide_eq_true
    rintro rfl
    exact h (List.mem_reverse.mp hc)

/-- What goes through the last sign of a text ends in the sign. -/
theorem throughLast_cases (mark : Char) (cs : List Char) :
    throughLast mark cs = [] ∨ ∃ before, throughLast mark cs = before ++ [mark] := by
  rw [throughLast]
  cases h : cs.reverse.dropWhile (· ≠ mark) with
  | nil => exact Or.inl rfl
  | cons c before =>
    have hc := List.head?_dropWhile_not (· ≠ mark) cs.reverse
    rw [h] at hc
    obtain rfl : c = mark := by simpa using hc
    exact Or.inr ⟨before.reverse, List.reverse_cons⟩

end PageLint.Text
