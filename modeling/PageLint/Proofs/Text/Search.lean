import PageLint.Text.Basic

/-!
# Searching a text

What the search for a suffix finds, and what comparing up to case says of the characters
that are compared.
-/

namespace PageLint.Text

theorem suffixIndex?_go_eq_some_iff {p : List Char → Bool} {cs : List Char} {i k : Nat} :
    suffixIndex?.go p i cs = some k ↔ ∃ n ≤ cs.length, k = i + n ∧ p (cs.drop n) = true ∧
      ∀ m < n, p (cs.drop m) = false := by
  induction cs generalizing i with
  | nil =>
    rw [suffixIndex?.go]
    constructor
    · intro h
      split at h
      · next hp =>
        cases h
        exact ⟨0, Nat.le_refl 0, rfl, hp, nofun⟩
      · cases h
    · rintro ⟨n, hn, rfl, hp, -⟩
      cases Nat.le_zero.mp hn
      exact if_pos hp
  | cons c cs ih =>
    rw [suffixIndex?.go]
    by_cases hc : p (c :: cs) = true
    · rw [if_pos hc]
      constructor
      · rintro ⟨⟩
        exact ⟨0, Nat.zero_le _, rfl, hc, nofun⟩
      · rintro ⟨n, -, rfl, -, hmin⟩
        cases n with
        | zero => rfl
        | succ n =>
          have hfirst := hmin 0 n.succ_pos
          rw [List.drop_zero, hc] at hfirst
          cases hfirst
    · rw [if_neg hc, ih]
      constructor
      · rintro ⟨n, hn, rfl, hp, hmin⟩
        refine ⟨n + 1, Nat.succ_le_succ hn, by omega, hp, ?_⟩
        intro m hm
        cases m with
        | zero => exact Bool.eq_false_iff.mpr hc
        | succ m => exact hmin m (Nat.lt_of_succ_lt_succ hm)
      · rintro ⟨n, hn, rfl, hp, hmin⟩
        cases n with
        | zero => exact absurd hp hc
        | succ n =>
          exact ⟨n, Nat.le_of_succ_le_succ hn, by omega, hp,
            fun m hm => hmin (m + 1) (Nat.succ_lt_succ hm)⟩

/-- The search finds the first suffix that satisfies the test. -/
theorem suffixIndex?_eq_some_iff {p : List Char → Bool} {cs : List Char} {k : Nat} :
    suffixIndex? p cs = some k ↔
      k ≤ cs.length ∧ p (cs.drop k) = true ∧ ∀ m < k, p (cs.drop m) = false := by
  rw [suffixIndex?, suffixIndex?_go_eq_some_iff]
  constructor
  · rintro ⟨n, hn, rfl, h⟩
    rw [Nat.zero_add]
    exact ⟨hn, h⟩
  · rintro ⟨hk, h⟩
    exact ⟨k, hk, (Nat.zero_add k).symm, h⟩

theorem suffixIndex?_go_eq_none {p : List Char → Bool} {cs : List Char} {i : Nat}
    (h : suffixIndex?.go p i cs = none) : ∀ n ≤ cs.length, p (cs.drop n) = false := by
  induction cs generalizing i with
  | nil =>
    rw [suffixIndex?.go] at h
    split at h
    · cases h
    · next hp =>
      intro n _
      rw [List.drop_nil]
      exact Bool.eq_false_iff.mpr hp
  | cons c cs ih =>
    rw [suffixIndex?.go] at h
    split at h
    · cases h
    · next hp =>
      intro n hn
      cases n with
      | zero => exact Bool.eq_false_iff.mpr hp
      | succ n => exact ih h n (Nat.le_of_succ_le_succ hn)

/-- A search that finds nothing has tested every suffix. -/
theorem suffixIndex?_eq_none {p : List Char → Bool} {cs : List Char}
    (h : suffixIndex? p cs = none) : ∀ n ≤ cs.length, p (cs.drop n) = false :=
  suffixIndex?_go_eq_none h

/-- What comes before the first such suffix, said of the two parts of a text. -/
theorem suffixIndex?_body_append {p : List Char → Bool} {body stop : List Char}
    (hstop : p stop = true)
    (hbody : ∀ pre post, body = pre ++ post → post ≠ [] → p (post ++ stop) = false) :
    suffixIndex? p (body ++ stop) = some body.length := by
  refine suffixIndex?_eq_some_iff.mpr ⟨?_, ?_, ?_⟩
  · rw [List.length_append]
    exact Nat.le_add_right _ _
  · rwa [List.drop_left]
  · intro m hm
    rw [List.drop_append_of_le_length (Nat.le_of_lt hm)]
    apply hbody (body.take m) _ (List.take_append_drop m body).symm
    rw [Ne, List.drop_eq_nil_iff]
    omega

/-- A test that holds of no text shorter than `n`, and that is not changed by what comes after
as many characters, finds the same place whatever comes after the text. -/
theorem suffixIndex?_append {p : List Char → Bool} {n : Nat}
    (long : ∀ {cs}, p cs = true → n ≤ cs.length)
    (stable : ∀ {cs}, n ≤ cs.length → ∀ more, p (cs ++ more) = p cs) {cs : List Char} {k : Nat}
    (h : suffixIndex? p cs = some k) (more : List Char) :
    suffixIndex? p (cs ++ more) = some k := by
  obtain ⟨hk, hp, hmin⟩ := suffixIndex?_eq_some_iff.mp h
  have hlong := long hp
  rw [List.length_drop] at hlong
  have same : ∀ m ≤ k, p ((cs ++ more).drop m) = p (cs.drop m) := by
    intro m hm
    rw [List.drop_append_of_le_length (Nat.le_trans hm hk)]
    apply stable
    rw [List.length_drop]
    omega
  refine suffixIndex?_eq_some_iff.mpr ⟨?_, (same k (Nat.le_refl k)).trans hp, ?_⟩
  · rw [List.length_append]
    omega
  · intro m hm
    exact (same m (Nat.le_of_lt hm)).trans (hmin m hm)

theorem prefix_append_iff {pattern cs : List Char} (h : pattern.length ≤ cs.length)
    (more : List Char) : pattern <+: cs ++ more ↔ pattern <+: cs := by
  constructor
  · intro hprefix
    exact List.prefix_of_prefix_length_le hprefix (List.prefix_append cs more) h
  · intro hprefix
    exact hprefix.trans (List.prefix_append cs more)

/-- A pattern that is found in a text is found at the same place whatever comes after it. -/
theorem suffixIndex?_isPrefixOf_append {pattern cs : List Char} {k : Nat}
    (h : suffixIndex? pattern.isPrefixOf cs = some k) (more : List Char) :
    suffixIndex? pattern.isPrefixOf (cs ++ more) = some k := by
  apply suffixIndex?_append _ _ h
  · exact pattern.length
  · intro cs hcs
    exact (List.isPrefixOf_iff_prefix.mp hcs).length_le
  · intro cs hcs more
    rw [Bool.eq_iff_iff, List.isPrefixOf_iff_prefix, List.isPrefixOf_iff_prefix,
      prefix_append_iff hcs]

theorem occursIn_iff {pattern cs : List Char} :
    occursIn pattern cs = true ↔ pattern <:+: cs := by
  rw [occursIn]
  cases h : suffixIndex? pattern.isPrefixOf cs with
  | none =>
    have hnone := suffixIndex?_eq_none h
    constructor
    · intro h
      cases h
    rintro ⟨before, after, rfl⟩
    have hprefix := hnone before.length (by simp)
    rw [List.append_assoc, List.drop_left,
      List.isPrefixOf_iff_prefix.mpr (List.prefix_append _ _)] at hprefix
    cases hprefix
  | some k =>
    obtain ⟨-, hprefix, -⟩ := suffixIndex?_eq_some_iff.mp h
    refine iff_of_true rfl ?_
    exact (List.isPrefixOf_iff_prefix.mp hprefix).isInfix.trans (List.drop_suffix k cs).isInfix

/-- A pattern is not found where its first sign is not. -/
theorem occursIn_append {sign : Char} {pattern cs : List Char} (h : sign ∉ cs)
    (ds : List Char) : occursIn (sign :: pattern) (cs ++ ds) = occursIn (sign :: pattern) ds := by
  rw [Bool.eq_iff_iff, occursIn_iff, occursIn_iff]
  induction cs with
  | nil => rfl
  | cons c cs ih =>
    obtain ⟨hc, hcs⟩ := not_or.mp (mt List.mem_cons.mpr h)
    rw [List.cons_append, List.infix_cons_iff, List.cons_prefix_cons, ih hcs]
    exact or_iff_right fun h => hc h.1

/-! ## Case of letters -/

theorem toLower_of_not_isUpper {c : Char} (h : c.isUpper = false) : c.toLower = c :=
  dif_neg (of_decide_eq_false h)

theorem isLower_toLower {c : Char} (h : c.isUpper = true) : c.toLower.isLower = true := by
  have hupper : c.val ≥ 'A'.val ∧ c.val ≤ 'Z'.val := of_decide_eq_true h
  have hle : 65 ≤ c.val.toNat := UInt32.le_iff_toNat_le.mp hupper.1
  have hge : c.val.toNat ≤ 90 := UInt32.le_iff_toNat_le.mp hupper.2
  have hlowered : c.toLower.val = c.val + ('a'.val - 'A'.val) :=
    congrArg Char.val (dif_pos hupper)
  have hval : c.toLower.val.toNat = c.val.toNat + 32 := by
    rw [hlowered]
    change (c.val.toNat + 32) % 4294967296 = _
    exact Nat.mod_eq_of_lt (by omega)
  have hlower : 'a'.val ≤ c.toLower.val ∧ c.toLower.val ≤ 'z'.val := by
    rw [UInt32.le_iff_toNat_le, UInt32.le_iff_toNat_le, hval]
    change 97 ≤ _ ∧ _ ≤ 122
    omega
  exact Bool.and_eq_true_iff.mpr ⟨decide_eq_true hlower.1, decide_eq_true hlower.2⟩

/-- Only a small letter is the lower case of another character. -/
theorem eq_of_toLower_eq {c d : Char} (h : c.toLower = d) (hd : d.isLower = false) : c = d := by
  cases hc : c.isUpper with
  | true =>
    rw [← h, isLower_toLower hc] at hd
    cases hd
  | false => rwa [toLower_of_not_isUpper hc] at h

theorem isAlpha_of_toLower_eq {c d : Char} (h : c.toLower = d) (hd : d.isLower = true) :
    c.isAlpha = true := by
  cases hc : c.isUpper with
  | true => exact Bool.or_eq_true_iff.mpr (Or.inl hc)
  | false =>
    rw [toLower_of_not_isUpper hc] at h
    exact Bool.or_eq_true_iff.mpr (Or.inr (h ▸ hd))

theorem startsIgnoringCase_iff {pattern cs : List Char} :
    startsIgnoringCase pattern cs = true ↔ pattern <+: cs.map Char.toLower := by
  induction pattern generalizing cs with
  | nil => simp [startsIgnoringCase]
  | cons p pattern ih =>
    cases cs with
    | nil => simp [startsIgnoringCase]
    | cons c cs =>
      rw [startsIgnoringCase, Bool.and_eq_true, decide_eq_true_eq, ih, List.map_cons,
        List.cons_prefix_cons]
      exact and_congr eq_comm Iff.rfl

/-- The same of a pattern in any case. -/
theorem suffixIndex?_startsIgnoringCase_append {pattern cs : List Char} {k : Nat}
    (h : suffixIndex? (startsIgnoringCase pattern) cs = some k) (more : List Char) :
    suffixIndex? (startsIgnoringCase pattern) (cs ++ more) = some k := by
  apply suffixIndex?_append _ _ h
  · exact pattern.length
  · intro cs hcs
    have hle := (startsIgnoringCase_iff.mp hcs).length_le
    rwa [List.length_map] at hle
  · intro cs hcs more
    rw [Bool.eq_iff_iff, startsIgnoringCase_iff, startsIgnoringCase_iff, List.map_append,
      prefix_append_iff (by rwa [List.length_map])]

end PageLint.Text
