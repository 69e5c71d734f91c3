import PageLint.Proofs.Markup.Laminar

/-!
# Elements and their tags

Elements are numbered in the order of their start tags. So the element of a token is told by the
start tags before it.
-/

namespace PageLint.Markup

/-- The element of the `n`-th token, if that is a start tag. -/
def elementAt (tokens : List Token) (n : Nat) : NodeId :=
  Arena.idOf (startTags (tokens.take n)).length

theorem elementAt_concat {tokens : List Token} {n : Nat} (h : n ≤ tokens.length) (t : Token) :
    elementAt (tokens ++ [t]) n = elementAt tokens n := by
  rw [elementAt, List.take_append_of_le_length h, elementAt]

theorem startTags_getElem? {tokens : List Token} {n : Nat} {t : Token}
    (ht : tokens[n]? = some t) (hstart : startTags [t] = [t]) :
    (startTags tokens)[(startTags (tokens.take n)).length]? = some t := by
  have hsplit : startTags tokens =
      startTags (tokens.take n) ++ t :: startTags (tokens.drop (n + 1)) := by
    obtain ⟨hlt, rfl⟩ := List.getElem?_eq_some_iff.mp ht
    conv => lhs; rw [← List.take_append_drop n tokens, List.drop_eq_getElem_cons hlt]
    rw [startTags, List.filter_append, ← startTags, ← startTags, startTags_cons, hstart]
    rfl
  rw [hsplit, List.getElem?_append_right (Nat.le_refl _), Nat.sub_self]
  rfl

theorem startTags_singleton (t : Token) : startTags [t] = [t] ∨ startTags [t] = [] := by
  obtain ⟨kind, span⟩ := t
  cases kind with
  | startTag name attributes selfClosing => exact Or.inl rfl
  | _ => exact Or.inr rfl

theorem exists_of_startTags_getElem? {tokens : List Token} {k : Nat} {t : Token}
    (h : (startTags tokens)[k]? = some t) :
    ∃ n, tokens[n]? = some t ∧ (startTags (tokens.take n)).length = k := by
  induction tokens generalizing k with
  | nil => cases h
  | cons u tokens ih =>
    rw [startTags_cons] at h
    rcases startTags_singleton u with hu | hu
    · rw [hu] at h
      cases k with
      | zero =>
        cases h
        exact ⟨0, rfl, rfl⟩
      | succ k =>
        obtain ⟨n, hn, hlength⟩ := ih h
        refine ⟨n + 1, hn, ?_⟩
        rw [List.take_succ_cons, startTags_cons, hu, List.length_append, hlength, Nat.add_comm]
        rfl
    · rw [hu] at h
      obtain ⟨n, hn, hlength⟩ := ih h
      refine ⟨n + 1, hn, ?_⟩
      rw [List.take_succ_cons, startTags_cons, hu, List.nil_append, hlength]

/-- Every element is that of a start tag. -/
theorem exists_elementAt_eq {tokens : List Token} {i : NodeId} {t : Token}
    (h : (startTags tokens)[i.index.toNat]? = some t) :
    ∃ n, tokens[n]? = some t ∧ elementAt tokens n = i := by
  obtain ⟨n, ht, hlength⟩ := exists_of_startTags_getElem? h
  refine ⟨n, ht, ?_⟩
  rw [elementAt, hlength]
  exact congrArg NodeId.mk UInt32.ofNat_toNat

theorem length_startTags_take_lt {tokens : List Token} {n m : Nat} {t : Token}
    (ht : tokens[n]? = some t) (hstart : startTags [t] = [t]) (h : n < m) :
    (startTags (tokens.take n)).length < (startTags (tokens.take m)).length := by
  have ht' : (tokens.take m)[n]? = some t := by rwa [List.getElem?_take, if_pos h]
  have htag := startTags_getElem? ht' hstart
  rw [List.take_take, Nat.min_eq_left h.le] at htag
  exact (List.getElem?_eq_some_iff.mp htag).1

theorem length_startTags_take_lt_iff {tokens : List Token} {n m : Nat} {t u : Token}
    (ht : tokens[n]? = some t) (hstart : startTags [t] = [t]) (hu : tokens[m]? = some u)
    (hstart' : startTags [u] = [u]) :
    (startTags (tokens.take n)).length < (startTags (tokens.take m)).length ↔ n < m := by
  constructor
  · intro h
    rcases Nat.lt_trichotomy n m with hlt | rfl | hgt
    · exact hlt
    · exact absurd h (Nat.lt_irrefl _)
    · exact absurd h (Nat.lt_asymm (length_startTags_take_lt hu hstart' hgt))
  · exact length_startTags_take_lt ht hstart

namespace Grown

variable {locator : Locator} {tree : Tree} {opened : List (NodeId × String)} {k : Nat}
  {tokens : List Token} (grown : Grown locator tree opened k (startTags tokens))
  (hk : k < UInt32.size) {n m : Nat} {t u : Token} (ht : tokens[n]? = some t)
  (hstart : startTags [t] = [t])

include grown hk ht hstart

/-- The tree has the element of each of its start tags. -/
theorem exists_elementAt :
    (elementAt tokens n).index.toNat = (startTags (tokens.take n)).length ∧
      ∃ node, tree.get? (elementAt tokens n) = some node ∧ node.MadeOf locator t := by
  have htag := startTags_getElem? ht hstart
  obtain ⟨hlt, -⟩ := List.getElem?_eq_some_iff.mp htag
  rw [← grown.size_eq] at hlt
  have hindex : (elementAt tokens n).index.toNat = (startTags (tokens.take n)).length :=
    Arena.index_idOf (ι := NodeId) (Nat.lt_of_lt_of_le hlt (Nat.le_trans grown.size_le hk.le))
  obtain ⟨node, hnode⟩ := Tree.exists_get? (hindex ▸ hlt)
  obtain ⟨t', ht', hmade⟩ := grown.made hnode
  rw [hindex, htag] at ht'
  cases ht'
  exact ⟨hindex, node, hnode, hmade⟩

theorem index_elementAt_lt_iff (hu : tokens[m]? = some u) (hstart' : startTags [u] = [u]) :
    (elementAt tokens n).index < (elementAt tokens m).index ↔ n < m := by
  obtain ⟨hindex, -⟩ := grown.exists_elementAt hk ht hstart
  obtain ⟨hindex', -⟩ := grown.exists_elementAt hk hu hstart'
  rw [UInt32.lt_iff_toNat_lt, hindex, hindex', length_startTags_take_lt_iff ht hstart hu hstart']

theorem eq_of_elementAt_eq (hu : tokens[m]? = some u) (hstart' : startTags [u] = [u])
    (h : elementAt tokens m = elementAt tokens n) : m = n := by
  rcases Nat.lt_trichotomy m n with hlt | heq | hlt
  · rw [← grown.index_elementAt_lt_iff hk hu hstart' ht hstart, h] at hlt
    exact absurd hlt (UInt32.lt_irrefl _)
  · exact heq
  · rw [← grown.index_elementAt_lt_iff hk ht hstart hu hstart', h] at hlt
    exact absurd hlt (UInt32.lt_irrefl _)

end Grown

end PageLint.Markup
