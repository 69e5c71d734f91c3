import PageLint.Markup.Parser
import PageLint.Proofs.Outcome
import PageLint.Proofs.Source.Place

/-!
# The order of positions

Boundaries of a text are ordered as the bytes they are at, which is as well the order
of their lines and columns. An offset keeps this order, so that the parts of an
embedded text lie to each other as they do in the text itself.
-/

namespace PageLint

/-- Of two places in a text, the earlier one is on an earlier line, or further left on
the same line. -/
theorem Text.byteLength_lt_iff {cs pre pre' post post' : List Char} (h : cs = pre ++ post)
    (h' : cs = pre' ++ post') :
    Text.byteLength pre < Text.byteLength pre' ↔
      pre.count '\n' < pre'.count '\n' ∨
        pre.count '\n' = pre'.count '\n' ∧ Text.column pre < Text.column pre' := by
  have later : ∀ a mid : List Char, a.count '\n' < (a ++ mid).count '\n' ∨
      a.count '\n' = (a ++ mid).count '\n' ∧
        Text.column (a ++ mid) = Text.column a + mid.length := by
    intro a mid
    by_cases hmid : '\n' ∈ mid
    · have := List.count_pos_iff.mpr hmid
      rw [List.count_append]
      omega
    · rw [List.count_append, List.count_eq_zero.mpr hmid, Text.column_append_of_not_mem a hmid]
      exact Or.inr ⟨rfl, rfl⟩
  -- one of the two beginnings of the text continues the other
  rcases List.append_eq_append_iff.mp (h.symm.trans h') with ⟨mid, rfl, -⟩ | ⟨mid, rfl, -⟩
  · have hbytes := Text.length_le_byteLength mid
    rw [Text.byteLength_append]
    rcases later pre mid with hlt | ⟨heq, hcolumn⟩
    · have hmid : mid ≠ [] := by
        rintro rfl
        rw [List.append_nil] at hlt
        exact Nat.lt_irrefl _ hlt
      have := List.length_pos_iff.mpr hmid
      omega
    · have hnil : mid.length = 0 → Text.byteLength mid = 0 := by
        intro hlen
        rw [List.eq_nil_of_length_eq_zero hlen]
        rfl
      omega
  · rw [Text.byteLength_append]
    rcases later pre' mid with hlt | ⟨heq, hcolumn⟩
    · omega
    · omega

namespace Position

theorem lt_iff_toNat {p q : Position} : p < q ↔ p.line.toNat < q.line.toNat ∨
    p.line.toNat = q.line.toNat ∧ p.column.toNat < q.column.toNat := by
  rw [lt_iff, UInt32.lt_iff_toNat_lt, UInt32.lt_iff_toNat_lt, UInt32.toNat_inj]

theorem not_lt {p q : Position} : ¬ p < q ↔ q ≤ p := by
  rw [lt_iff_toNat, le_iff, UInt32.lt_iff_toNat_lt, UInt32.le_iff_toNat_le, ← UInt32.toNat_inj]
  omega

theorem lt_of_lt_of_le {p q r : Position} (h : p < q) (h' : q ≤ r) : p < r := by
  rw [← not_lt, lt_iff_toNat] at h'
  rw [lt_iff_toNat] at h ⊢
  omega

theorem le_trans {p q r : Position} (h : p ≤ q) (h' : q ≤ r) : p ≤ r := by
  rw [← not_lt, lt_iff_toNat] at h h' ⊢
  omega

theorem le_refl (p : Position) : p ≤ p := by
  rw [← not_lt, lt_iff_toNat]
  omega

theorem not_le {p q : Position} : ¬ p ≤ q ↔ q < p := by rw [← not_lt, Classical.not_not]

theorem le_total (p q : Position) : p ≤ q ∨ q ≤ p := by
  rw [← not_lt, ← not_lt, lt_iff_toNat, lt_iff_toNat]
  omega

theorem le_antisymm {p q : Position} (h : p ≤ q) (h' : q ≤ p) : p = q := by
  rw [← not_lt, lt_iff_toNat] at h h'
  have hline : p.line = q.line := UInt32.toNat_inj.mp (by omega)
  have hcolumn : p.column = q.column := UInt32.toNat_inj.mp (by omega)
  cases p
  cases q
  exact (mk.injEq _ _ _ _).mpr ⟨hline, hcolumn⟩

theorem after_lt_after_iff {cs pre pre' post post' : List Char} (h : cs = pre ++ post)
    (h' : cs = pre' ++ post') (short : Text.byteLength cs < UInt32.size) :
    after pre < after pre' ↔ Text.byteLength pre < Text.byteLength pre' := by
  have hpre := congrArg Text.byteLength h
  have hpre' := congrArg Text.byteLength h'
  rw [Text.byteLength_append] at hpre hpre'
  rw [Text.byteLength_lt_iff h h', lt_iff_toNat, after_line_toNat (by omega),
    after_line_toNat (by omega), after_column_toNat (by omega), after_column_toNat (by omega)]

end Position

/-! ## Moving by an offset -/

theorem toNat_of_checkedAdd {a b c : UInt32} (h : checkedAdd a b = .ok c) :
    c.toNat = a.toNat + b.toNat := by
  unfold checkedAdd at h
  split at h
  · next hfit =>
    cases h
    rw [UInt32.toNat_add, Nat.mod_eq_of_lt hfit]
  · cases h

theorem Position.toNat_of_offsetBy {p p' : Position} {offset : Offset}
    (h : p.offsetBy offset = .ok p') :
    p'.line.toNat = p.line.toNat + offset.line.toNat ∧
      p'.column.toNat =
        p.column.toNat + if p.line.toNat = 0 then offset.column.toNat else 0 := by
  have hzero : p.line = 0 ↔ p.line.toNat = 0 := UInt32.toNat_inj.symm
  unfold offsetBy at h
  split at h
  · next hline =>
    obtain ⟨column, hcolumn, h⟩ := bind_eq_ok_iff.mp h
    obtain ⟨line, hline', h⟩ := bind_eq_ok_iff.mp h
    cases h
    rw [if_pos (hzero.mp hline)]
    exact ⟨toNat_of_checkedAdd hline', toNat_of_checkedAdd hcolumn⟩
  · next hline =>
    obtain ⟨column, hcolumn, h⟩ := bind_eq_ok_iff.mp h
    obtain ⟨line, hline', h⟩ := bind_eq_ok_iff.mp h
    cases h
    cases hcolumn
    rw [if_neg (mt hzero.mpr hline)]
    exact ⟨toNat_of_checkedAdd hline', rfl⟩

theorem Position.offsetBy_lt_iff {p q p' q' : Position} {offset : Offset}
    (hp : p.offsetBy offset = .ok p') (hq : q.offsetBy offset = .ok q') : p' < q' ↔ p < q := by
  obtain ⟨hpline, hpcolumn⟩ := toNat_of_offsetBy hp
  obtain ⟨hqline, hqcolumn⟩ := toNat_of_offsetBy hq
  rw [lt_iff_toNat, lt_iff_toNat, hpline, hqline, hpcolumn, hqcolumn]
  -- columns matter on one line only, and there both are moved or neither is
  by_cases hline : p.line.toNat = q.line.toNat
  · rw [hline]
    omega
  · omega

/-! ## Places of a text that may be embedded -/

namespace Markup.Locator

/-- The boundary of the text at byte `k` is at a position of the file. -/
structure Places (locator : Locator) (k : Nat) (p : Position) : Prop where
  isBoundary : Text.IsBoundary locator.file.content.toList k
  position : locator.position k = .ok p

variable {locator : Locator} {k k' : Nat} {p p' : Position}

theorem Places.lt_iff (short : Text.byteLength locator.file.content.toList < UInt32.size)
    (h : locator.Places k p) (h' : locator.Places k' p') : p < p' ↔ k < k' := by
  obtain ⟨⟨pre, post, hpre, rfl⟩, hp⟩ := h
  obtain ⟨⟨pre', post', hpre', rfl⟩, hp'⟩ := h'
  have hafter := Position.after_lt_after_iff hpre hpre' short
  unfold Locator.position at hp hp'
  rw [SourceFile.positionAt_of_append _ hpre] at hp
  rw [SourceFile.positionAt_of_append _ hpre'] at hp'
  cases hoffset : locator.offset with
  | none =>
    rw [hoffset] at hp hp'
    cases hp
    cases hp'
    exact hafter
  | some offset =>
    rw [hoffset] at hp hp'
    rw [Position.offsetBy_lt_iff hp hp']
    exact hafter

theorem Places.le_iff (short : Text.byteLength locator.file.content.toList < UInt32.size)
    (h : locator.Places k p) (h' : locator.Places k' p') : p ≤ p' ↔ k ≤ k' := by
  rw [← Position.not_lt, h'.lt_iff short h, Nat.not_lt]

end Markup.Locator

end PageLint
