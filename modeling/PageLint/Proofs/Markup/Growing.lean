import PageLint.Proofs.Markup.Ancestry
import PageLint.Proofs.Markup.Tiling

/-!
# Trees while they grow

While a tree is built, the open elements are a chain of parents, and all elements that
are closed end before what is still to be read. `Grown` is this invariant. It is kept
when elements are closed and when one is added, and it says of a tree in which nothing
is open any more that its elements are nested.
-/

namespace PageLint.Markup

/-- The ids of some open elements. -/
def openIds (opened : List (NodeId × String)) : List NodeId := opened.map (·.1)

namespace Tree

/-! ## Trees after a change -/

theorem index_push {tree : Tree} (h : tree.size < UInt32.size) (node : Node) :
    (tree.push node).2.index.toNat = tree.size := by
  have hid : (tree.push node).2 = Arena.idOf tree.size := rfl
  rw [hid]
  exact Arena.index_idOf (ι := NodeId) h

theorem get?_push {tree : Tree} (h : tree.size < UInt32.size) (node : Node) (i : NodeId) :
    (tree.push node).1.get? i = if i = (tree.push node).2 then some node else tree.get? i := by
  have hget : (tree.push node).1.get? i =
      if i.index.toNat = tree.size then some node else tree.get? i := Arena.get?_alloc _ _ _
  simp only [hget, ← index_push h node, UInt32.toNat_inj, NodeId.index_inj]

theorem get?_push_new {tree : Tree} (h : tree.size < UInt32.size) (node : Node) :
    tree.get? (tree.push node).2 = none := by
  rw [Option.eq_none_iff_forall_ne_some]
  intro a ha
  have hlt := index_lt_of_get? ha
  rw [index_push h] at hlt
  exact Nat.lt_irrefl _ hlt

theorem get?_push_eq_some {tree : Tree} (h : tree.size < UInt32.size) {node a : Node}
    {i : NodeId} : (tree.push node).1.get? i = some a ↔
      i = (tree.push node).2 ∧ a = node ∨ tree.get? i = some a := by
  rw [get?_push h]
  by_cases hi : i = (tree.push node).2
  · simp [hi, get?_push_new h, eq_comm]
  · simp [hi]

theorem get?_push_self {tree : Tree} (h : tree.size < UInt32.size) (node : Node) :
    (tree.push node).1.get? (tree.push node).2 = some node :=
  (get?_push_eq_some h).mpr (Or.inl ⟨rfl, rfl⟩)

theorem get?_push_of_get? {tree : Tree} (h : tree.size < UInt32.size) (node : Node) {i : NodeId}
    {a : Node} (hi : tree.get? i = some a) : (tree.push node).1.get? i = some a :=
  (get?_push_eq_some h).mpr (Or.inr hi)

theorem ne_push_of_get? {tree : Tree} (h : tree.size < UInt32.size) (node : Node) {i : NodeId}
    {a : Node} (hi : tree.get? i = some a) : i ≠ (tree.push node).2 := by
  rintro rfl
  rw [get?_push_new h] at hi
  cases hi

theorem parent?_push_eq_some {tree : Tree} (h : tree.size < UInt32.size) {node : Node}
    {i p : NodeId} : (tree.push node).1.parent? i = some p ↔
      i = (tree.push node).2 ∧ node.parent = some p ∨ tree.parent? i = some p := by
  simp only [parent?, Option.bind_eq_some_iff, get?_push_eq_some h]
  constructor
  · rintro ⟨a, ⟨hi, rfl⟩ | hi, hp⟩
    · exact Or.inl ⟨hi, hp⟩
    · exact Or.inr ⟨a, hi, hp⟩
  · rintro (⟨hi, hp⟩ | ⟨a, hi, hp⟩)
    · exact ⟨node, Or.inl ⟨hi, rfl⟩, hp⟩
    · exact ⟨a, Or.inr hi, hp⟩

theorem get?_modify (tree : Tree) (id : NodeId) (f : Node → Node) (i : NodeId) :
    (tree.modify id f).get? i = (tree.get? i).map fun a => if id = i then f a else a := by
  have hget : (tree.modify id f).get? i =
      if id.index = i.index then (tree.get? i).map f else tree.get? i := Arena.get?_modify _ _ _ _
  rw [hget]
  by_cases h : id = i
  · simp [h]
  · simp [h, NodeId.index_inj]

theorem get?_stopAt (tree : Tree) (stop : Position) (ids : List (NodeId × String)) (i : NodeId) :
    (stopAt tree stop ids).get? i = (tree.get? i).map fun a =>
      if i ∈ openIds ids then { a with range := { a.range with stop } } else a := by
  induction ids generalizing tree with
  | nil => simp [stopAt, openIds]
  | cons e ids ih =>
    have hmem : i ∈ openIds (e :: ids) ↔ e.1 = i ∨ i ∈ openIds ids := by
      simp [openIds, eq_comm]
    change (stopAt (tree.modify e.1 _) stop ids).get? i = _
    rw [ih, get?_modify, Option.map_map]
    congr 1
    funext a
    by_cases he : e.1 = i
    · simp [hmem, he]
    · simp [hmem, he]

@[simp] theorem size_push (tree : Tree) (node : Node) : (tree.push node).1.size = tree.size + 1 :=
  Arena.size_alloc _ _

@[simp] theorem size_modify (tree : Tree) (id : NodeId) (f : Node → Node) :
    (tree.modify id f).size = tree.size :=
  Arena.size_modify _ _ _

@[simp] theorem size_stopAt (tree : Tree) (stop : Position) (ids : List (NodeId × String)) :
    (stopAt tree stop ids).size = tree.size := by
  induction ids generalizing tree with
  | nil => rfl
  | cons e ids ih =>
    change (stopAt (tree.modify e.1 _) stop ids).size = _
    rw [ih, size_modify]

/-- The parent that an element of the tree records. -/
def link? (tree : Tree) (i : NodeId) : Option (Option NodeId) := (tree.get? i).map (·.parent)

theorem parent?_eq_some {tree : Tree} {i p : NodeId} :
    tree.parent? i = some p ↔ tree.link? i = some (some p) := by
  unfold parent? link?
  cases tree.get? i with
  | none => simp
  | some a => simp

/-- The second tree differs from the first in the raw texts and the ends of elements at most. -/
structure Keeps (tree tree' : Tree) : Prop where
  size_eq : tree'.size = tree.size
  exists_old {i : NodeId} {a : Node} (h : tree'.get? i = some a) :
    ∃ old, tree.get? i = some old ∧ a.kind = old.kind ∧ a.attributes = old.attributes ∧
      a.range.start = old.range.start
  link?_eq (i : NodeId) : tree'.link? i = tree.link? i

namespace Keeps

variable {tree tree' : Tree}

theorem of_map (size : tree'.size = tree.size) (g : NodeId → Node → Node)
    (get : ∀ i, tree'.get? i = (tree.get? i).map (g i))
    (keeps : ∀ i a, (g i a).kind = a.kind ∧ (g i a).attributes = a.attributes ∧
      (g i a).range.start = a.range.start ∧ (g i a).parent = a.parent) : tree.Keeps tree' := by
  refine ⟨size, ?_, ?_⟩
  · intro i a h
    rw [get] at h
    obtain ⟨old, hold, rfl⟩ := Option.map_eq_some_iff.mp h
    obtain ⟨hkind, hattributes, hstart, -⟩ := keeps i old
    exact ⟨old, hold, hkind, hattributes, hstart⟩
  · intro i
    rw [link?, get, Option.map_map, link?]
    congr 1
    funext a
    exact (keeps i a).2.2.2

theorem refl (tree : Tree) : tree.Keeps tree :=
  ⟨rfl, fun h => ⟨_, h, rfl, rfl, rfl⟩, fun _ => rfl⟩

theorem modify (tree : Tree) (id : NodeId) (textRange : Option SourceRange)
    (text : Option String) : tree.Keeps (tree.modify id fun a => { a with textRange, text }) := by
  refine of_map (tree.size_modify _ _) _ (tree.get?_modify _ _) ?_
  intro i a
  split
  · exact ⟨rfl, rfl, rfl, rfl⟩
  · exact ⟨rfl, rfl, rfl, rfl⟩

theorem stopAt (tree : Tree) (stop : Position) (ids : List (NodeId × String)) :
    tree.Keeps (stopAt tree stop ids) := by
  refine of_map (tree.size_stopAt _ _) _ (tree.get?_stopAt _ _) ?_
  intro i a
  split
  · exact ⟨rfl, rfl, rfl, rfl⟩
  · exact ⟨rfl, rfl, rfl, rfl⟩

variable (keeps : tree.Keeps tree')

include keeps

theorem parent?_eq_some_iff {i p : NodeId} :
    tree'.parent? i = some p ↔ tree.parent? i = some p := by
  rw [parent?_eq_some, parent?_eq_some, keeps.link?_eq]

theorem exists_new {i : NodeId} (h : ∃ a, tree.get? i = some a) :
    ∃ a, tree'.get? i = some a := by
  obtain ⟨a, ha⟩ := h
  apply exists_get?
  rw [keeps.size_eq]
  exact index_lt_of_get? ha

theorem inside {i j : NodeId} (h : tree.Inside j i) : tree'.Inside j i :=
  h.mono fun _ _ => keeps.parent?_eq_some_iff.mpr

end Keeps

/-- Open elements, the innermost first: each is the parent of the one before it. -/
def Chained (tree : Tree) : List (NodeId × String) → Prop
  | [] => True
  | e :: rest => tree.link? e.1 = some (rest.head?.map (·.1)) ∧ Chained tree rest

namespace Chained

variable {tree tree' : Tree} {opened : List (NodeId × String)}

theorem congr (h : tree.Chained opened)
    (hlink : ∀ i, (∃ a, tree.get? i = some a) → tree'.link? i = tree.link? i) :
    tree'.Chained opened := by
  induction opened with
  | nil => trivial
  | cons e rest ih =>
    refine ⟨?_, ih h.2⟩
    obtain ⟨a, ha, -⟩ := Option.map_eq_some_iff.mp h.1
    rw [hlink e.1 ⟨a, ha⟩]
    exact h.1

theorem drop (h : tree.Chained opened) (n : Nat) : tree.Chained (opened.drop n) := by
  induction n generalizing opened with
  | zero => exact h
  | succ n ih =>
    cases opened with
    | nil => exact h
    | cons e rest => exact ih h.2

theorem exists_get? (h : tree.Chained opened) {i : NodeId} (hi : i ∈ openIds opened) :
    ∃ a, tree.get? i = some a := by
  induction opened with
  | nil => cases hi
  | cons e rest ih =>
    rcases List.mem_cons.mp hi with rfl | hi
    · obtain ⟨a, ha, -⟩ := Option.map_eq_some_iff.mp h.1
      exact ⟨a, ha⟩
    · exact ih h.2 hi

/-- The parent of an open element is open. -/
theorem parent_mem (h : tree.Chained opened) {i j : NodeId} (hj : j ∈ openIds opened)
    (hp : tree.parent? j = some i) : i ∈ openIds opened := by
  induction opened with
  | nil => cases hj
  | cons e rest ih =>
    apply List.mem_cons_of_mem
    rcases List.mem_cons.mp hj with rfl | hj
    · rw [parent?_eq_some, h.1] at hp
      obtain ⟨e', he', rfl⟩ := Option.map_eq_some_iff.mp (Option.some.inj hp)
      exact List.mem_map_of_mem (List.mem_of_head? he')
    · exact ih h.2 hj

/-- The innermost open element is inside all others. -/
theorem inside_head {e : NodeId × String} (h : tree.Chained (e :: opened)) {i : NodeId}
    (hi : i ∈ openIds opened) : tree.Inside e.1 i := by
  induction opened generalizing e with
  | nil => cases hi
  | cons e' rest ih =>
    have hparent : tree.parent? e.1 = some e'.1 := parent?_eq_some.mpr h.1
    rcases List.mem_cons.mp hi with rfl | hi
    · exact Relation.TransGen.single hparent
    · exact Relation.TransGen.head hparent (ih h.2 hi)

theorem push (h : tree.Chained opened) (hsize : tree.size < UInt32.size) (node : Node) :
    (tree.push node).1.Chained opened := by
  apply h.congr
  rintro i ⟨a, ha⟩
  rw [link?, link?, ha, get?_push_of_get? hsize node ha]

/-- A child of the innermost open element continues the chain. -/
theorem push_cons (h : tree.Chained opened) (hsize : tree.size < UInt32.size) {node : Node}
    (hparent : node.parent = opened.head?.map (·.1)) (name : String) :
    (tree.push node).1.Chained (((tree.push node).2, name) :: opened) := by
  refine ⟨?_, h.push hsize node⟩
  rw [link?, get?_push_self hsize, Option.map_some, hparent]

end Chained

theorem parent?_push_cases {tree : Tree} (h : tree.size < UInt32.size) {node : Node}
    {opened : List (NodeId × String)} (hparent : node.parent = opened.head?.map (·.1))
    {i p : NodeId} (hp : (tree.push node).1.parent? i = some p) :
    i = (tree.push node).2 ∧ p ∈ openIds opened ∨ tree.parent? i = some p := by
  rcases (parent?_push_eq_some h).mp hp with ⟨hi, hp⟩ | hp
  · rw [hparent, ← List.head?_map] at hp
    exact Or.inl ⟨hi, List.mem_of_head? hp⟩
  · exact Or.inr hp

end Tree

/-! ## The invariant -/

/-- The tags that open elements, in their order. -/
def startTags (tokens : List Token) : List Token :=
  tokens.filter fun t => match t.kind with
    | .startTag .. => true
    | _ => false

/-- The tag of an element that holds nothing. -/
def Token.IsLeaf (t : Token) : Prop :=
  ∃ name attributes selfClosing, t.kind = .startTag name attributes selfClosing ∧
    (selfClosing = true ∨ name ∈ voidElements)

/-- The element is that of a start tag. -/
def Node.MadeOf (locator : Locator) (node : Node) (t : Token) : Prop :=
  ∃ attributes selfClosing, t.kind = .startTag node.kind attributes selfClosing ∧
    attributes.mapM locator.attribute = .ok node.attributes ∧
    locator.Places t.span.start node.range.start

/-- The tree of some start tags after byte `k`, where some elements are still open. -/
structure Grown (locator : Locator) (tree : Tree) (opened : List (NodeId × String)) (k : Nat)
    (tags : List Token) : Prop where
  size_eq : tree.size = tags.length
  size_le : tree.size ≤ k
  tags_lt {t : Token} (ht : t ∈ tags) : t.span.start < k
  ordered : tags.Pairwise fun t t' => t.span.start < t'.span.start
  made {i : NodeId} {a : Node} (hi : tree.get? i = some a) :
    ∃ t, tags[i.index.toNat]? = some t ∧ a.MadeOf locator t
  ended {i : NodeId} {a : Node} (hi : tree.get? i = some a) (hclosed : i ∉ openIds opened) :
    a.range.start < a.range.stop ∧ ∃ e ≤ k, locator.Places e a.range.stop
  parent_lt {i p : NodeId} (h : tree.parent? i = some p) :
    p.index < i.index ∧ ∃ a, tree.get? p = some a
  within {i j : NodeId} {a b : Node} (hi : tree.get? i = some a) (hj : tree.get? j = some b)
    (h : tree.parent? j = some i) (hclosed : i ∉ openIds opened) :
    j ∉ openIds opened ∧ b.range.stop ≤ a.range.stop
  apart {i j : NodeId} {a b : Node} (hi : tree.get? i = some a) (hj : tree.get? j = some b)
    (hlt : i.index < j.index) :
    tree.Inside j i ∨ i ∉ openIds opened ∧ a.range.stop ≤ b.range.start
  chained : tree.Chained opened
  not_isLeaf {i : NodeId} {t : Token} (ht : tags[i.index.toNat]? = some t)
    (h : i ∈ openIds opened ∨ ∃ j, tree.parent? j = some i) : ¬ t.IsLeaf

namespace Grown

variable {locator : Locator} {tree : Tree} {opened : List (NodeId × String)} {k : Nat}
  {tags : List Token}

theorem empty (locator : Locator) : Grown locator Tree.empty [] 0 [] where
  size_eq := rfl
  size_le := Nat.le_refl 0
  tags_lt := nofun
  ordered := List.Pairwise.nil
  made := nofun
  ended := nofun
  parent_lt := nofun
  within := nofun
  apart := nofun
  chained := trivial
  not_isLeaf := nofun

theorem later (grown : Grown locator tree opened k tags) {k' : Nat} (h : k ≤ k') :
    Grown locator tree opened k' tags :=
  { grown with
    size_le := Nat.le_trans grown.size_le h
    tags_lt := fun ht => Nat.lt_of_lt_of_le (grown.tags_lt ht) h
    ended := fun hi hclosed => by
      obtain ⟨hlt, e, he, hplaces⟩ := grown.ended hi hclosed
      exact ⟨hlt, e, Nat.le_trans he h, hplaces⟩ }

/-- Ending open elements and filling in raw text leaves the elements where they are. -/
theorem keep (grown : Grown locator tree opened k tags) {tree' : Tree} (keeps : tree.Keeps tree')
    {opened' : List (NodeId × String)} (hopened : ∀ i ∈ openIds opened', i ∈ openIds opened)
    (chained : tree.Chained opened')
    (unchanged : ∀ {i a}, tree'.get? i = some a → i ∉ openIds opened →
      ∃ old, tree.get? i = some old ∧ a.range = old.range)
    (ended : ∀ {i a}, tree'.get? i = some a → i ∉ openIds opened' →
      a.range.start < a.range.stop ∧ ∃ e ≤ k, locator.Places e a.range.stop)
    (within : ∀ {i j a b}, tree'.get? i = some a → tree'.get? j = some b →
      tree.parent? j = some i → i ∉ openIds opened' →
        j ∉ openIds opened' ∧ b.range.stop ≤ a.range.stop) :
    Grown locator tree' opened' k tags where
  size_eq := keeps.size_eq.trans grown.size_eq
  size_le := keeps.size_eq ▸ grown.size_le
  tags_lt := grown.tags_lt
  ordered := grown.ordered
  made := by
    intro i a hi
    obtain ⟨old, hold, hkind, hattributes, hstart⟩ := keeps.exists_old hi
    obtain ⟨t, ht, hmade⟩ := grown.made hold
    rw [Node.MadeOf, ← hkind, ← hattributes, ← hstart] at hmade
    exact ⟨t, ht, hmade⟩
  ended := ended
  parent_lt := by
    intro i p h
    obtain ⟨hlt, hp⟩ := grown.parent_lt (keeps.parent?_eq_some_iff.mp h)
    exact ⟨hlt, keeps.exists_new hp⟩
  within := fun hi hj h => within hi hj (keeps.parent?_eq_some_iff.mp h)
  apart := by
    intro i j a b hi hj hlt
    obtain ⟨a', hi', -⟩ := keeps.exists_old hi
    obtain ⟨b', hj', -, -, hstart⟩ := keeps.exists_old hj
    rcases grown.apart hi' hj' hlt with h | ⟨hclosed, hle⟩
    · exact Or.inl (keeps.inside h)
    · obtain ⟨old, hold, hrange⟩ := unchanged hi hclosed
      cases hi'.symm.trans hold
      rw [hrange, hstart]
      exact Or.inr ⟨fun h => hclosed (hopened i h), hle⟩
  chained := chained.congr fun i _ => keeps.link?_eq i
  not_isLeaf := by
    rintro i t ht (h | ⟨j, h⟩)
    · exact grown.not_isLeaf ht (Or.inl (hopened i h))
    · exact grown.not_isLeaf ht (Or.inr ⟨j, keeps.parent?_eq_some_iff.mp h⟩)

theorem modify (grown : Grown locator tree opened k tags) (id : NodeId)
    (textRange : Option SourceRange) (text : Option String) :
    Grown locator (tree.modify id fun a => { a with textRange, text }) opened k tags := by
  have hrange : ∀ {i a}, (tree.modify id fun a => { a with textRange, text }).get? i = some a →
      ∃ old, tree.get? i = some old ∧ a.range = old.range := by
    intro i a hi
    rw [Tree.get?_modify] at hi
    obtain ⟨old, hold, rfl⟩ := Option.map_eq_some_iff.mp hi
    refine ⟨old, hold, ?_⟩
    split
    · rfl
    · rfl
  apply grown.keep (Tree.Keeps.modify tree id textRange text)
  case hopened => exact fun _ h => h
  case chained => exact grown.chained
  case unchanged => exact fun hi _ => hrange hi
  case ended =>
    intro i a hi hclosed
    obtain ⟨old, hold, heq⟩ := hrange hi
    rw [heq]
    exact grown.ended hold hclosed
  case within =>
    intro i j a b hi hj h hclosed
    obtain ⟨old, hold, heq⟩ := hrange hi
    obtain ⟨old', hold', heq'⟩ := hrange hj
    rw [heq, heq']
    exact grown.within hold hold' h hclosed

/-- The innermost open elements are closed together: they are those whose parents are closed
with them, so that none of them can end after its parent. -/
theorem close (short : Text.byteLength locator.file.content.toList < UInt32.size)
    (grown : Grown locator tree opened k tags) {e : Nat} {p : Position}
    (hp : locator.Places e p) (hk : k ≤ e) (n : Nat) :
    Grown locator (stopAt tree p (opened.take n)) (opened.drop n) e tags := by
  have hsplit : openIds (opened.take n) ++ openIds (opened.drop n) = openIds opened := by
    rw [openIds, openIds, ← List.map_append, List.take_append_drop]
    rfl
  have mem_iff : ∀ i, i ∈ openIds opened ↔
      i ∈ openIds (opened.take n) ∨ i ∈ openIds (opened.drop n) := by
    intro i
    rw [← hsplit, List.mem_append]
  have get_old : ∀ {i a}, (stopAt tree p (opened.take n)).get? i = some a →
      ∃ old, tree.get? i = some old ∧ a.range =
        if i ∈ openIds (opened.take n) then { old.range with stop := p } else old.range := by
    intro i a hi
    rw [Tree.get?_stopAt] at hi
    obtain ⟨old, hold, rfl⟩ := Option.map_eq_some_iff.mp hi
    refine ⟨old, hold, ?_⟩
    split
    · rfl
    · rfl
  have chained := grown.chained.drop n
  apply (grown.later hk).keep (Tree.Keeps.stopAt tree p (opened.take n))
  case hopened => exact fun i hi => (mem_iff i).mpr (Or.inr hi)
  case chained => exact chained
  case unchanged =>
    intro i a hi hclosed
    obtain ⟨old, hold, hrange⟩ := get_old hi
    rw [if_neg fun h => hclosed ((mem_iff i).mpr (Or.inl h))] at hrange
    exact ⟨old, hold, hrange⟩
  case ended =>
    intro i a hi hclosed
    obtain ⟨old, hold, hrange⟩ := get_old hi
    rw [hrange]
    by_cases h : i ∈ openIds (opened.take n)
    · rw [if_pos h]
      obtain ⟨t, ht, -, -, -, -, hplaces⟩ := grown.made hold
      refine ⟨(hplaces.lt_iff short hp).mpr ?_, e, Nat.le_refl e, hp⟩
      exact Nat.lt_of_lt_of_le (grown.tags_lt (List.mem_of_getElem? ht)) hk
    · rw [if_neg h]
      apply (grown.later hk).ended hold
      rw [mem_iff]
      exact not_or_intro h hclosed
  case within =>
    intro i j a b hi hj h hclosed
    obtain ⟨old, hold, hrange⟩ := get_old hi
    obtain ⟨old', hold', hrange'⟩ := get_old hj
    have hclosed' : j ∉ openIds (opened.drop n) := fun hj => hclosed (chained.parent_mem hj h)
    refine ⟨hclosed', ?_⟩
    rw [hrange, hrange']
    -- a child that is closed now ends with its parent, another one had ended by byte `k`
    by_cases htake : i ∈ openIds (opened.take n)
    · rw [if_pos htake]
      by_cases htake' : j ∈ openIds (opened.take n)
      · rw [if_pos htake']
        exact Position.le_refl p
      · rw [if_neg htake']
        obtain ⟨-, e', he', hplaces⟩ :=
          grown.ended hold' fun h => ((mem_iff j).mp h).elim htake' hclosed'
        exact (hplaces.le_iff short hp).mpr (Nat.le_trans he' hk)
    · obtain ⟨hj, hle⟩ := grown.within hold hold' h fun h => ((mem_iff i).mp h).elim htake hclosed
      rw [if_neg htake, if_neg fun h => hj ((mem_iff j).mpr (Or.inl h))]
      exact hle

/-- What is open after an element was added: that one is as well, unless it is a leaf. -/
def Opens (opened opened' : List (NodeId × String)) (id : NodeId) (t : Token) : Prop :=
  opened' = opened ∨ ¬ t.IsLeaf ∧ ∃ name, opened' = (id, name) :: opened

namespace Opens

variable {opened' : List (NodeId × String)} {id : NodeId} {t : Token}
  (opens : Opens opened opened' id t)

include opens

theorem mem {i : NodeId} (hi : i ∈ openIds opened) : i ∈ openIds opened' := by
  rcases opens with rfl | ⟨-, name, rfl⟩
  · exact hi
  · exact List.mem_cons_of_mem _ hi

theorem mem_cases {i : NodeId} (hi : i ∈ openIds opened') :
    i = id ∧ ¬ t.IsLeaf ∨ i ∈ openIds opened := by
  rcases opens with rfl | ⟨hleaf, name, rfl⟩
  · exact Or.inr hi
  · rcases List.mem_cons.mp hi with rfl | hi
    · exact Or.inl ⟨rfl, hleaf⟩
    · exact Or.inr hi

/-- What was closed stays closed. -/
theorem not_mem {i : NodeId} (hne : i ≠ id) (hi : i ∉ openIds opened) : i ∉ openIds opened' := by
  intro hmem
  rcases opens.mem_cases hmem with ⟨rfl, -⟩ | hmem
  · exact hne rfl
  · exact hi hmem

end Opens

section

variable (grown : Grown locator tree opened k tags) (hsize : tree.size < UInt32.size) {t : Token}
  {node : Node} (hparent : node.parent = opened.head?.map (·.1))
  {opened' : List (NodeId × String)} (opens : Opens opened opened' (tree.push node).2 t)

include grown

theorem getElem?_tags_of_get? {i : NodeId} {a : Node} (hi : tree.get? i = some a) (t : Token) :
    (tags ++ [t])[i.index.toNat]? = tags[i.index.toNat]? := by
  apply List.getElem?_append_left
  rw [← grown.size_eq]
  exact Tree.index_lt_of_get? hi

include hsize

theorem getElem?_tags_push (t : Token) (node : Node) :
    (tags ++ [t])[(tree.push node).2.index.toNat]? = some t := by
  rw [Tree.index_push hsize, grown.size_eq, List.getElem?_concat_length]

include hparent

theorem parent_lt_push {i p : NodeId} (h : (tree.push node).1.parent? i = some p) :
    p.index < i.index ∧ ∃ a, (tree.push node).1.get? p = some a := by
  rcases Tree.parent?_push_cases hsize hparent h with ⟨rfl, hp⟩ | h
  · obtain ⟨a, ha⟩ := grown.chained.exists_get? hp
    refine ⟨?_, a, Tree.get?_push_of_get? hsize node ha⟩
    rw [UInt32.lt_iff_toNat_lt, Tree.index_push hsize]
    exact Tree.index_lt_of_get? ha
  · obtain ⟨hlt, a, ha⟩ := grown.parent_lt h
    exact ⟨hlt, a, Tree.get?_push_of_get? hsize node ha⟩

include opens

theorem within_push {i j : NodeId} {a b : Node} (hi : (tree.push node).1.get? i = some a)
    (hj : (tree.push node).1.get? j = some b) (h : (tree.push node).1.parent? j = some i)
    (hclosed : i ∉ openIds opened') : j ∉ openIds opened' ∧ b.range.stop ≤ a.range.stop := by
  rcases Tree.parent?_push_cases hsize hparent h with ⟨-, hp⟩ | h
  · exact absurd (opens.mem hp) hclosed
  obtain ⟨-, a', hi'⟩ := grown.parent_lt h
  obtain ⟨b', hj', -⟩ := Option.bind_eq_some_iff.mp h
  cases hi.symm.trans (Tree.get?_push_of_get? hsize node hi')
  cases hj.symm.trans (Tree.get?_push_of_get? hsize node hj')
  obtain ⟨hclosed', hle⟩ := grown.within hi' hj' h (mt opens.mem hclosed)
  exact ⟨opens.not_mem (Tree.ne_push_of_get? hsize node hj') hclosed', hle⟩

/-- A new element is inside all that is open, and starts where the rest has ended. -/
theorem apart_push (short : Text.byteLength locator.file.content.toList < UInt32.size)
    (hplaces : locator.Places k node.range.start) {i j : NodeId} {a b : Node}
    (hi : (tree.push node).1.get? i = some a) (hj : (tree.push node).1.get? j = some b)
    (hlt : i.index < j.index) :
    (tree.push node).1.Inside j i ∨ i ∉ openIds opened' ∧ a.range.stop ≤ b.range.start := by
  -- the ids grow, so the earlier one of two elements is never the new one
  have old : tree.get? i = some a := by
    rcases (Tree.get?_push_eq_some hsize).mp hi with ⟨rfl, -⟩ | hi
    · have hle := Tree.index_lt_of_get? hj
      rw [Tree.size_push] at hle
      rw [UInt32.lt_iff_toNat_lt, Tree.index_push hsize] at hlt
      omega
    · exact hi
  have still_closed (h : i ∉ openIds opened) : i ∉ openIds opened' :=
    opens.not_mem (Tree.ne_push_of_get? hsize node old) h
  rcases (Tree.get?_push_eq_some hsize).mp hj with ⟨rfl, rfl⟩ | hj
  · by_cases h : i ∈ openIds opened
    · exact Or.inl ((grown.chained.push_cons hsize hparent "").inside_head h)
    · obtain ⟨-, e, he, hstop⟩ := grown.ended old h
      exact Or.inr ⟨still_closed h, (hstop.le_iff short hplaces).mpr he⟩
  · rcases grown.apart old hj hlt with h | ⟨h, hle⟩
    · have mono (i p : NodeId) (hp : tree.parent? i = some p) :
          (tree.push node).1.parent? i = some p :=
        (Tree.parent?_push_eq_some hsize).mpr (Or.inr hp)
      exact Or.inl (h.mono mono)
    · exact Or.inr ⟨still_closed h, hle⟩

theorem not_isLeaf_push {i : NodeId} {t' : Token} (ht' : (tags ++ [t])[i.index.toNat]? = some t')
    (h : i ∈ openIds opened' ∨ ∃ j, (tree.push node).1.parent? j = some i) : ¬ t'.IsLeaf := by
  have old (h : i ∈ openIds opened ∨ ∃ j, tree.parent? j = some i) : ¬ t'.IsLeaf := by
    have hi : ∃ a, tree.get? i = some a := by
      rcases h with h | ⟨j, h⟩
      · exact grown.chained.exists_get? h
      · exact (grown.parent_lt h).2
    obtain ⟨a, ha⟩ := hi
    rw [grown.getElem?_tags_of_get? ha] at ht'
    exact grown.not_isLeaf ht' h
  rcases h with h | ⟨j, h⟩
  · rcases opens.mem_cases h with ⟨rfl, hleaf⟩ | h
    · rw [grown.getElem?_tags_push hsize] at ht'
      cases ht'
      exact hleaf
    · exact old (Or.inl h)
  · rcases Tree.parent?_push_cases hsize hparent h with ⟨-, h⟩ | h
    · exact old (Or.inl h)
    · exact old (Or.inr ⟨j, h⟩)

end

theorem push (short : Text.byteLength locator.file.content.toList < UInt32.size)
    (grown : Grown locator tree opened k tags) {t : Token} {node : Node}
    (hstart : t.span.start = k) (covers : t.Covers locator.file.content.toList)
    (made : node.MadeOf locator t) (hparent : node.parent = opened.head?.map (·.1))
    (hstop : locator.Places t.span.stop node.range.stop) {opened' : List (NodeId × String)}
    (opens : Opens opened opened' (tree.push node).2 t) :
    Grown locator (tree.push node).1 opened' t.span.stop (tags ++ [t]) := by
  have hplaces : locator.Places k node.range.start := by
    obtain ⟨-, -, -, -, h⟩ := made
    exact hstart ▸ h
  have hlt : k < t.span.stop := by
    obtain ⟨attributes, selfClosing, hkind, -⟩ := made
    rw [← hstart]
    apply covers.lt
    rw [hkind]
    exact nofun
  have hsize : tree.size < UInt32.size := by
    have hle := covers.stop.le_byteLength
    have := grown.size_le
    omega
  constructor
  case size_eq => rw [Tree.size_push, grown.size_eq, List.length_append, List.length_singleton]
  case size_le =>
    rw [Tree.size_push]
    exact Nat.lt_of_le_of_lt grown.size_le hlt
  case tags_lt =>
    intro t' ht'
    rcases List.mem_append.mp ht' with ht' | ht'
    · exact Nat.lt_trans (grown.tags_lt ht') hlt
    · rw [List.mem_singleton.mp ht', hstart]
      exact hlt
  case ordered =>
    rw [List.pairwise_append]
    refine ⟨grown.ordered, List.pairwise_singleton _ _, ?_⟩
    intro t' ht' t'' ht''
    rw [List.mem_singleton.mp ht'', hstart]
    exact grown.tags_lt ht'
  case made =>
    intro i a hi
    rcases (Tree.get?_push_eq_some hsize).mp hi with ⟨rfl, rfl⟩ | hi
    · exact ⟨t, grown.getElem?_tags_push hsize t a, made⟩
    · obtain ⟨t', ht', hmade⟩ := grown.made hi
      exact ⟨t', (grown.getElem?_tags_of_get? hi t).trans ht', hmade⟩
  case ended =>
    intro i a hi hclosed
    rcases (Tree.get?_push_eq_some hsize).mp hi with ⟨rfl, rfl⟩ | hi
    · exact ⟨(hplaces.lt_iff short hstop).mpr hlt, t.span.stop, Nat.le_refl _, hstop⟩
    · obtain ⟨hlt', e, he, h⟩ := grown.ended hi (mt opens.mem hclosed)
      exact ⟨hlt', e, Nat.le_trans he (Nat.le_of_lt hlt), h⟩
  case parent_lt => exact grown.parent_lt_push hsize hparent
  case within => exact grown.within_push hsize hparent opens
  case apart => exact grown.apart_push hsize hparent opens short hplaces
  case chained =>
    rcases opens with rfl | ⟨-, name, rfl⟩
    · exact grown.chained.push hsize node
    · exact grown.chained.push_cons hsize hparent name
  case not_isLeaf => exact grown.not_isLeaf_push hsize hparent opens

/-- When nothing is open any more, the elements are nested. -/
theorem nested (short : Text.byteLength locator.file.content.toList < UInt32.size)
    (grown : Grown locator tree [] k tags) : tree.Nested where
  parent_lt := grown.parent_lt
  start_lt := fun hi => (grown.ended hi List.not_mem_nil).1
  ordered := by
    intro i j a b hi hj hlt
    obtain ⟨t, ht, -, -, -, -, hplaces⟩ := grown.made hi
    obtain ⟨t', ht', -, -, -, -, hplaces'⟩ := grown.made hj
    rw [hplaces.lt_iff short hplaces']
    obtain ⟨hti, rfl⟩ := List.getElem?_eq_some_iff.mp ht
    obtain ⟨htj, rfl⟩ := List.getElem?_eq_some_iff.mp ht'
    exact List.pairwise_iff_getElem.mp grown.ordered _ _ hti htj (UInt32.lt_iff_toNat_lt.mp hlt)
  within := fun hi hj h => (grown.within hi hj h List.not_mem_nil).2
  apart := by
    intro i j a b hi hj hlt
    rcases grown.apart hi hj hlt with h | ⟨-, hle⟩
    · exact Or.inl h
    · exact Or.inr hle

end Grown

end PageLint.Markup
