/-!
# Borders

An array whose first items satisfy a test, and whose other items do not, has a border
between the two parts. It is found by halving the stretch that it may lie in.

`border_eq_countP` says that the border is the number of items that satisfy the test.
-/

namespace PageLint

/-- The border of `a`, which lies from `lo` to `hi`. -/
def borderWithin {α : Type} (p : α → Bool) (a : Array α) (lo hi : Nat) (h : hi ≤ a.size) : Nat :=
  if gap : lo < hi then
    let mid := (lo + hi) / 2
    if p a[mid] then borderWithin p a (mid + 1) hi h else borderWithin p a lo mid (by omega)
  else lo
termination_by hi - lo

/-- The number of first items of `a` that satisfy `p`, if no item after them does. -/
def border {α : Type} (p : α → Bool) (a : Array α) : Nat :=
  borderWithin p a 0 a.size (Nat.le_refl _)

section

variable {α : Type} {p : α → Bool} {a : Array α}

theorem borderWithin_spec
    (mono : ∀ (i j : Nat) (hi : i < a.size) (hj : j < a.size), i ≤ j → p a[j] → p a[i])
    (lo hi : Nat) (h : hi ≤ a.size) (hlohi : lo ≤ hi)
    (before : ∀ (i : Nat) (_ : i < a.size), i < lo → p a[i])
    (after : ∀ (i : Nat) (_ : i < a.size), hi ≤ i → ¬ p a[i]) :
    borderWithin p a lo hi h ≤ a.size ∧
      ∀ (i : Nat) (_ : i < a.size), p a[i] ↔ i < borderWithin p a lo hi h := by
  induction lo, hi, h using borderWithin.induct p a with
  | case1 lo hi h gap mid hp ih =>
    rw [borderWithin, dif_pos gap, if_pos hp]
    refine ih (by omega) ?_ after
    intro i hi hlt
    exact mono i mid hi (by omega) (by omega) hp
  | case2 lo hi h gap mid hp ih =>
    rw [borderWithin, dif_pos gap, if_neg hp]
    refine ih (by omega) before ?_
    intro i hi hle hpi
    exact hp (mono mid i (by omega) hi hle hpi)
  | case3 lo hi h gap =>
    rw [borderWithin, dif_neg gap]
    refine ⟨by omega, ?_⟩
    intro i hi
    constructor
    · intro hpi
      apply Nat.lt_of_not_le
      intro hle
      exact after i hi (by omega) hpi
    · exact before i hi

theorem border_eq_countP (mono : a.toList.Pairwise fun x y => p y → p x) :
    border p a = a.toList.countP p := by
  have mono' : ∀ (i j : Nat) (hi : i < a.size) (hj : j < a.size), i ≤ j → p a[j] → p a[i] := by
    intro i j hi hj hle hp
    rcases Nat.lt_or_eq_of_le hle with hlt | rfl
    · exact List.pairwise_iff_getElem.mp mono i j hi hj hlt hp
    · exact hp
  obtain ⟨hle, hiff⟩ := borderWithin_spec mono' 0 a.size (Nat.le_refl _) (Nat.zero_le _)
    (by intro i _ h; exact absurd h (Nat.not_lt_zero i))
    (by intro i h h'; exact absurd h (Nat.not_lt.mpr h'))
  change borderWithin p a 0 a.size (Nat.le_refl _) = _
  generalize borderWithin p a 0 a.size (Nat.le_refl _) = b at hle hiff
  have htake : (a.toList.take b).countP p = b := by
    rw [List.countP_eq_length.mpr, List.length_take, Array.length_toList, Nat.min_eq_left hle]
    intro x hx
    obtain ⟨i, hi, rfl⟩ := List.mem_take_iff_getElem.mp hx
    rw [Array.length_toList] at hi
    exact (hiff i (by omega)).mpr (by omega)
  have hdrop : (a.toList.drop b).countP p = 0 := by
    rw [List.countP_eq_zero]
    intro x hx hp
    obtain ⟨i, hi, rfl⟩ := List.mem_drop_iff_getElem.mp hx
    rw [Array.length_toList] at hi
    have := (hiff (b + i) (by omega)).mp hp
    omega
  rw [← List.take_append_drop b a.toList, List.countP_append, htake, hdrop, Nat.add_zero]

end

end PageLint
