import PageLint.Proofs.Text.Search

/-!
# Texts up to case

Lower case keeps the length of a text and every sign in it that is no letter, so what looks for
signs, or for a word in any case, finds the same in a text and in its lower case.
-/

namespace PageLint.Text

/-! ## Characters -/

theorem isUpper_of_isLower {c : Char} (h : c.isLower = true) : c.isUpper = false := by
  have hlower : 'a'.val ≤ c.val := of_decide_eq_true (Bool.and_eq_true_iff.mp h).1
  refine decide_eq_false fun hupper => ?_
  exact absurd (UInt32.le_trans hlower hupper.2) (by decide)

theorem utf8Size_toLower (c : Char) : c.toLower.utf8Size = c.utf8Size := by
  cases hc : c.isUpper with
  | false => rw [toLower_of_not_isUpper hc]
  | true =>
    have hupper : c.val ≥ 'A'.val ∧ c.val ≤ 'Z'.val := of_decide_eq_true hc
    have hlower := Bool.and_eq_true_iff.mp (isLower_toLower hc)
    have hle : c.toLower.val ≤ 'z'.val := of_decide_eq_true hlower.2
    rw [Char.utf8Size_eq_one_iff.mpr (UInt32.le_trans hle (by decide)),
      Char.utf8Size_eq_one_iff.mpr (UInt32.le_trans hupper.2 (by decide))]

theorem toLower_toLower (c : Char) : c.toLower.toLower = c.toLower := by
  cases hc : c.isUpper with
  | false => rw [toLower_of_not_isUpper hc, toLower_of_not_isUpper hc]
  | true => exact toLower_of_not_isUpper (isUpper_of_isLower (isLower_toLower hc))

theorem isAlpha_toLower (c : Char) : c.toLower.isAlpha = c.isAlpha := by
  cases hc : c.isUpper with
  | false => rw [toLower_of_not_isUpper hc]
  | true =>
    have hlower : c.toLower.isAlpha = true := Bool.or_eq_true_iff.mpr (.inr (isLower_toLower hc))
    have hupper : c.isAlpha = true := Bool.or_eq_true_iff.mpr (.inl hc)
    rw [hlower, hupper]

/-- A sign is the lower case of no other character. -/
theorem toLower_eq_iff {c d : Char} (h : d.isAlpha = false) : c.toLower = d ↔ c = d := by
  obtain ⟨hupper, hlower⟩ := Bool.or_eq_false_iff.mp h
  constructor
  · intro hc
    exact eq_of_toLower_eq hc hlower
  · rintro rfl
    exact toLower_of_not_isUpper hupper

theorem isMarkupSpace_toLower (c : Char) : isMarkupSpace c.toLower = isMarkupSpace c := by
  simp only [isMarkupSpace, toLower_eq_iff (show ' '.isAlpha = false by decide),
    toLower_eq_iff (show '\t'.isAlpha = false by decide),
    toLower_eq_iff (show '\n'.isAlpha = false by decide),
    toLower_eq_iff (show '\x0c'.isAlpha = false by decide),
    toLower_eq_iff (show '\r'.isAlpha = false by decide)]

/-! ## Texts -/

theorem byteLength_map_toLower (cs : List Char) :
    byteLength (cs.map Char.toLower) = byteLength cs := by
  induction cs with
  | nil => rfl
  | cons c cs ih => rw [List.map_cons, byteLength_cons, byteLength_cons, utf8Size_toLower, ih]

theorem map_toLower_map_toLower (cs : List Char) :
    (cs.map Char.toLower).map Char.toLower = cs.map Char.toLower := by
  rw [List.map_map]
  exact List.map_congr_left fun c _ => toLower_toLower c

theorem lower_ofList (cs : List Char) :
    lower (String.ofList cs) = String.ofList (cs.map Char.toLower) := by
  rw [lower, String.toList_ofList]

theorem equalIgnoringCase_iff {s t : String} :
    equalIgnoringCase s t = true ↔ lower s = lower t :=
  decide_eq_true_iff

section

variable {p : Char → Bool} (hp : ∀ c, p c.toLower = p c) (cs : List Char)

include hp

theorem takeWhile_map_toLower :
    (cs.map Char.toLower).takeWhile p = (cs.takeWhile p).map Char.toLower := by
  rw [List.takeWhile_map, show p ∘ Char.toLower = p from funext hp]

theorem dropWhile_map_toLower :
    (cs.map Char.toLower).dropWhile p = (cs.dropWhile p).map Char.toLower := by
  rw [List.dropWhile_map, show p ∘ Char.toLower = p from funext hp]

end

/-! ## Searching -/

theorem suffixIndex?_map_toLower {p : List Char → Bool}
    (hp : ∀ cs : List Char, p (cs.map Char.toLower) = p cs) (cs : List Char) :
    suffixIndex? p (cs.map Char.toLower) = suffixIndex? p cs := by
  have go (k : Nat) : suffixIndex?.go p k (cs.map Char.toLower) = suffixIndex?.go p k cs := by
    induction cs generalizing k with
    | nil => rfl
    | cons c cs ih =>
      rw [List.map_cons, suffixIndex?.go, suffixIndex?.go, ← List.map_cons, hp, ih]
  exact go 0

theorem startsIgnoringCase_map_toLower (pattern cs : List Char) :
    startsIgnoringCase pattern (cs.map Char.toLower) = startsIgnoringCase pattern cs := by
  rw [Bool.eq_iff_iff, startsIgnoringCase_iff, startsIgnoringCase_iff, map_toLower_map_toLower]

theorem isPrefixOf_map_toLower {pattern : List Char} (h : pattern.any Char.isAlpha = false)
    (cs : List Char) : pattern.isPrefixOf (cs.map Char.toLower) = pattern.isPrefixOf cs := by
  induction pattern generalizing cs with
  | nil => rfl
  | cons p pattern ih =>
    obtain ⟨hp, h⟩ := Bool.or_eq_false_iff.mp h
    cases cs with
    | nil => rfl
    | cons c cs =>
      rw [Bool.eq_iff_iff, List.map_cons, List.isPrefixOf_cons_cons, List.isPrefixOf_cons_cons,
        Bool.and_eq_true, Bool.and_eq_true, ih h, beq_iff_eq, beq_iff_eq, eq_comm,
        toLower_eq_iff hp, eq_comm]

theorem splitOn_map_toLower (cs : List Char) :
    (cs.map Char.toLower).splitOn '\n' = (cs.splitOn '\n').map (·.map Char.toLower) := by
  induction cs with
  | nil => rfl
  | cons c cs ih =>
    have hc : (c.toLower == '\n') = (c == '\n') := by
      rw [Bool.eq_iff_iff, beq_iff_eq, beq_iff_eq, toLower_eq_iff (by decide)]
    rw [List.map_cons, List.splitOn_cons_eq_if_modifyHead, List.splitOn_cons_eq_if_modifyHead, hc,
      ih]
    split
    · rfl
    · cases cs.splitOn '\n' with
      | nil => rfl
      | cons piece pieces => rfl

end PageLint.Text
