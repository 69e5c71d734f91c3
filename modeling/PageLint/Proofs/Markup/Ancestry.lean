import Mathlib.Data.Nat.Find
import Mathlib.Logic.Relation
import PageLint.Markup.Tree
import PageLint.Proofs.Arena
import PageLint.Proofs.Source.Order

/-!
# Elements inside elements

An element is inside another if a chain of parents leads to it. In a laminar tree the
ranges tell the same as the parents: an element is inside an earlier one if it starts
before that one ends, and otherwise lies after it.
-/

namespace PageLint.Markup

theorem NodeId.index_inj {id other : NodeId} : id.index = other.index ↔ id = other := by
  cases id
  cases other
  simp

namespace Tree

/-- The element around another. -/
def parent? (tree : Tree) (id : NodeId) : Option NodeId := (tree.get? id).bind (·.parent)

/-- A chain of parents leads from the first element to the second. -/
def Inside (tree : Tree) (inner outer : NodeId) : Prop :=
  Relation.TransGen (fun child parent => tree.parent? child = some parent) inner outer

theorem Inside.mono {tree tree' : Tree} {i j : NodeId}
    (h : ∀ child parent, tree.parent? child = some parent → tree'.parent? child = some parent)
    (hij : tree.Inside j i) : tree'.Inside j i :=
  Relation.TransGen.mono h _ _ hij

theorem index_lt_of_get? {tree : Tree} {i : NodeId} {a : Node} (h : tree.get? i = some a) :
    i.index.toNat < tree.size :=
  Arena.index_lt_size_of_get? h

theorem exists_get? {tree : Tree} {i : NodeId} (h : i.index.toNat < tree.size) :
    ∃ a, tree.get? i = some a :=
  ⟨_, Array.getElem?_eq_getElem h⟩

/-- The elements inside each other are told by their ranges. -/
structure Laminar (tree : Tree) : Prop where
  parent_lt {i p : NodeId} (h : tree.parent? i = some p) :
    p.index < i.index ∧ ∃ a, tree.get? p = some a
  /-- The elements inside another are those of the next ids. -/
  block (i : NodeId) : ∃ n, ∀ j, tree.Inside j i ↔
    i.index.toNat < j.index.toNat ∧ j.index.toNat ≤ i.index.toNat + n
  inside_iff {i j : NodeId} {a b : Node} (hi : tree.get? i = some a) (hj : tree.get? j = some b)
    (hlt : i.index < j.index) : tree.Inside j i ↔ b.range.start < a.range.stop
  of_inside {i j : NodeId} {a b : Node} (hi : tree.get? i = some a) (hj : tree.get? j = some b)
    (h : tree.Inside j i) : a.range.start < b.range.start ∧ b.range.stop ≤ a.range.stop
  of_not_inside {i j : NodeId} {a b : Node} (hi : tree.get? i = some a)
    (hj : tree.get? j = some b) (hlt : i.index < j.index) (h : ¬ tree.Inside j i) :
    a.range.stop ≤ b.range.start

/-- What a tree that was built in document order knows of each element and of each two of
them that follow each other. -/
structure Nested (tree : Tree) : Prop where
  parent_lt {i p : NodeId} (h : tree.parent? i = some p) :
    p.index < i.index ∧ ∃ a, tree.get? p = some a
  start_lt {i : NodeId} {a : Node} (hi : tree.get? i = some a) : a.range.start < a.range.stop
  ordered {i j : NodeId} {a b : Node} (hi : tree.get? i = some a) (hj : tree.get? j = some b)
    (hlt : i.index < j.index) : a.range.start < b.range.start
  within {i j : NodeId} {a b : Node} (hi : tree.get? i = some a) (hj : tree.get? j = some b)
    (h : tree.parent? j = some i) : b.range.stop ≤ a.range.stop
  apart {i j : NodeId} {a b : Node} (hi : tree.get? i = some a) (hj : tree.get? j = some b)
    (hlt : i.index < j.index) : tree.Inside j i ∨ a.range.stop ≤ b.range.start

namespace Nested

variable {tree : Tree} (nested : tree.Nested)

include nested

/-- An element that is inside another comes after it and ends with it at the latest. -/
theorem of_inside {i j : NodeId} (h : tree.Inside j i) :
    i.index < j.index ∧ ∃ a b, tree.get? i = some a ∧ tree.get? j = some b ∧
      b.range.stop ≤ a.range.stop := by
  have exists_child : ∀ {c p : NodeId}, tree.parent? c = some p → ∃ b, tree.get? c = some b := by
    intro c p hp
    obtain ⟨b, hb, -⟩ := Option.bind_eq_some_iff.mp hp
    exact ⟨b, hb⟩
  induction h with
  | single hp =>
    obtain ⟨hlt, a, ha⟩ := nested.parent_lt hp
    obtain ⟨b, hb⟩ := exists_child hp
    exact ⟨hlt, a, b, ha, hb, nested.within ha hb hp⟩
  | tail _ hp ih =>
    obtain ⟨hlt, a, ha⟩ := nested.parent_lt hp
    obtain ⟨hlt', m, b, hm, hb, hle⟩ := ih
    exact ⟨UInt32.lt_trans hlt hlt', a, b, ha, hb,
      Position.le_trans hle (nested.within ha hm hp)⟩

theorem start_lt_of_inside {i j : NodeId} {a b : Node} (hi : tree.get? i = some a)
    (hj : tree.get? j = some b) (h : tree.Inside j i) : b.range.start < a.range.stop := by
  obtain ⟨-, a', b', ha', hb', hle⟩ := nested.of_inside h
  cases hi.symm.trans ha'
  cases hj.symm.trans hb'
  exact Position.lt_of_lt_of_le (nested.start_lt hj) hle

theorem inside_iff {i j : NodeId} {a b : Node} (hi : tree.get? i = some a)
    (hj : tree.get? j = some b) (hlt : i.index < j.index) :
    tree.Inside j i ↔ b.range.start < a.range.stop := by
  constructor
  · exact nested.start_lt_of_inside hi hj
  · intro hstart
    rcases nested.apart hi hj hlt with h | h
    · exact h
    · exact absurd hstart (Position.not_lt.mpr h)

/-- What comes between an element and one inside it is inside it as well. -/
theorem inside_of_le {i j m : NodeId} (h : tree.Inside j i)
    (hlt : i.index.toNat < m.index.toNat) (hle : m.index.toNat ≤ j.index.toNat) :
    tree.Inside m i := by
  obtain ⟨-, a, b, hi, hj, -⟩ := nested.of_inside h
  obtain ⟨c, hm⟩ := exists_get? (Nat.lt_of_le_of_lt hle (index_lt_of_get? hj))
  rcases Nat.lt_or_eq_of_le hle with hmj | hmj
  · rw [nested.inside_iff hi hm (UInt32.lt_iff_toNat_lt.mpr hlt)]
    have horder := nested.ordered hm hj (UInt32.lt_iff_toNat_lt.mpr hmj)
    have hstart := nested.start_lt_of_inside hi hj h
    rw [Position.lt_iff_toNat] at *
    omega
  · rw [UInt32.toNat_inj, NodeId.index_inj] at hmj
    rwa [hmj]

theorem block (i : NodeId) : ∃ n, ∀ j, tree.Inside j i ↔
    i.index.toNat < j.index.toNat ∧ j.index.toNat ≤ i.index.toNat + n := by
  classical
  -- the last of the ids inside `i` ends the block
  let p : Nat → Prop := fun n => ∃ j, tree.Inside j i ∧ j.index.toNat = i.index.toNat + n
  refine ⟨Nat.findGreatest p tree.size, fun j => ⟨fun h => ?_, ?_⟩⟩
  · obtain ⟨hlt, -, b, -, hj, -⟩ := nested.of_inside h
    have hsize := index_lt_of_get? hj
    rw [UInt32.lt_iff_toNat_lt] at hlt
    have hle : j.index.toNat - i.index.toNat ≤ Nat.findGreatest p tree.size := by
      apply Nat.le_findGreatest
      · omega
      · exact ⟨j, h, by omega⟩
    omega
  · rintro ⟨hlt, hle⟩
    have hne : Nat.findGreatest p tree.size ≠ 0 := by omega
    obtain ⟨m, hm, hindex⟩ := Nat.findGreatest_of_ne_zero rfl hne
    exact nested.inside_of_le hm hlt (by omega)

theorem laminar : tree.Laminar where
  parent_lt := nested.parent_lt
  block := nested.block
  inside_iff := nested.inside_iff
  of_inside := by
    intro i j a b hi hj h
    obtain ⟨hlt, a', b', ha', hb', hle⟩ := nested.of_inside h
    cases hi.symm.trans ha'
    cases hj.symm.trans hb'
    exact ⟨nested.ordered hi hj hlt, hle⟩
  of_not_inside := by
    intro i j a b hi hj hlt h
    exact (nested.apart hi hj hlt).resolve_left h

end Nested

end Tree

end PageLint.Markup
