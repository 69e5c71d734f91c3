import PageLint.Proofs.Markup.Hearing
import PageLint.Proofs.Markup.Lowering
import PageLint.Proofs.Markup.Reading
import PageLint.Proofs.Markup.RawBody

/-!
# Raw text elements that hold others

Raw text ends at an end tag whose name begins with the name of its element, but only an end tag of
that name, or of the name of an element around it, closes the element. So an element of raw text
holds others just if it is still open where the next start tag comes, and then the name of the end
tag behind its text is a longer one.
-/

namespace PageLint.Markup

/-! ## What stands behind raw text -/

theorem endTag_of_endsRawText {name : String} (hraw : isRawTextElement name = true) {c : Cursor}
    (h : EndsRawText name c.rest) :
    ∃ more span, (endTag c).tokens = [⟨.endTag (name ++ more), span⟩] := by
  obtain ⟨tail, htail⟩ := h
  have hname : ∀ x ∈ name.toList, isEndTagNameChar x = true := by
    rcases isRawTextElement_iff.mp hraw with rfl | rfl
    · exact List.all_eq_true.mp (by decide)
    · exact List.all_eq_true.mp (by decide)
  have hrun : ((c.skip 2).run isEndTagNameChar).map Char.toLower =
      name.toList ++ tail.takeWhile isEndTagNameChar := by
    have hrest : (c.skip 2).rest.map Char.toLower = name.toList ++ tail := by
      rw [Cursor.skip, List.map_drop, ← htail]
      rfl
    rw [Cursor.run, ← Text.takeWhile_map_toLower isEndTagNameChar_toLower, hrest,
      List.takeWhile_append_of_pos hname]
  refine ⟨String.ofList (tail.takeWhile isEndTagNameChar),
    c.spanTo ((c.skipWhile (· ≠ '>')).skip 1), ?_⟩
  rw [endTag, lowerName, hrun, String.ofList_append, String.ofList_toList]

theorem rawText_ends (name : String) (c : Cursor) :
    (rawText name c).next.rest = [] ∨ EndsRawText name (rawText name c).next.rest := by
  unfold rawText
  split
  · next k hk =>
    exact Or.inr (Text.startsIgnoringCase_iff.mp (Text.suffixIndex?_eq_some_iff.mp hk).2.1)
  · exact Or.inl rfl

/-- Behind a start tag that opens raw text are its text and nothing more, or an end tag whose
name begins with that of the element. -/
theorem behind_rawText {cs : List Char} {c : Cursor} (h : c.In cs) {n : Nat} {t : Token}
    (ht : (lexed c).tokens[n]? = some t) (hopens : t.kind.opensRawText = true) :
    ∃ name attributes span content span' tail, t = ⟨.startTag name attributes false, span⟩ ∧
      (lexed c).tokens.drop (n + 1) = ⟨.text content, span'⟩ :: tail ∧
      (tail = [] ∨ ∃ more span'' rest, tail = ⟨.endTag (name ++ more), span''⟩ :: rest) := by
  obtain ⟨d, b, k, rfl, hd, -, hk, hdrop, -⟩ := exists_step h ht
  obtain ⟨rfl, name, body, -, hreads⟩ := readsRaw_step hd hopens hk
  obtain ⟨attributes, htag⟩ := hreads.tag
  obtain ⟨content, htext⟩ := rawText_tokens name body
  rw [hreads.tokens, htext, hreads.next] at hdrop
  refine ⟨name, attributes, d.spanTo body, content, body.spanTo (rawText name body).next,
    (lexed (rawText name body).next).tokens, htag, ?_, ?_⟩
  · rw [Nat.add_zero, ← List.drop_drop, hdrop]
    rfl
  · rcases rawText_ends name body with hnil | hends
    · rw [lexed_of_rest_nil hnil]
      exact Or.inl rfl
    · have hopening := opening_of_startsIgnoringCase hreads.raw
        (Text.startsIgnoringCase_iff.mpr hends)
      have hne : (rawText name body).next.rest ≠ [] := by
        intro hnil
        rw [hnil] at hopening
        cases hopening
      obtain ⟨more, span, htokens⟩ := endTag_of_endsRawText hreads.raw hends
      rw [lexed_of_rest_ne_nil hne, step, hopening]
      simp only [htokens]
      exact Or.inr ⟨more, span, _, rfl⟩

/-! ## Start tags before an element is closed -/

/-- Among the tokens a start tag comes before any end tag of a name that `closes`. -/
def StartsBefore (closes : String → Prop) : List Token → Prop
  | [] => False
  | t :: ts => match t.kind with
    | .startTag .. => True
    | .endTag name => ¬ closes name ∧ StartsBefore closes ts
    | _ => StartsBefore closes ts

theorem startsBefore_of_startTag {t : Token} {name : String} {attributes : List RawAttribute}
    {selfClosing : Bool} (h : t.kind = .startTag name attributes selfClosing)
    (closes : String → Prop) (ts : List Token) : StartsBefore closes (t :: ts) := by
  rw [StartsBefore, h]
  trivial

theorem not_startsBefore_of_endTag {t : Token} {name : String} (h : t.kind = .endTag name)
    {closes : String → Prop} (hcloses : closes name) (ts : List Token) :
    ¬ StartsBefore closes (t :: ts) := by
  rw [StartsBefore, h]
  exact fun hbefore => hbefore.1 hcloses

theorem startsBefore_cons_iff {t : Token} (h : startTags [t] = []) {closes : String → Prop}
    (hcloses : ∀ name, t.kind = .endTag name → ¬ closes name) (ts : List Token) :
    StartsBefore closes (t :: ts) ↔ StartsBefore closes ts := by
  obtain ⟨kind, span⟩ := t
  cases kind with
  | startTag name attributes selfClosing => cases h
  | endTag name => exact and_iff_right (hcloses name rfl)
  | _ => exact Iff.rfl

theorem StartsBefore.congr {closes closes' : String → Prop}
    (h : ∀ name, closes name ↔ closes' name) (ts : List Token) :
    StartsBefore closes ts ↔ StartsBefore closes' ts := by
  rw [show closes = closes' from funext fun name => propext (h name)]

namespace Tree

/-- Some element has the element as its parent. -/
def HasChild (tree : Tree) (i : NodeId) : Prop := ∃ j, tree.parent? j = some i

/-- The name is that of the element or of one around it: an end tag of the name closes the
element if it is open. -/
def ClosedBy (tree : Tree) (i : NodeId) (name : String) : Prop :=
  ∃ j node, (j = i ∨ tree.Inside i j) ∧ tree.get? j = some node ∧ node.kind = name

/-- The `n`-th token opens raw text, and the element is not closed before the next start tag. -/
def Overruns (tree : Tree) (tokens : List Token) (n : Nat) : Prop :=
  ∃ t, tokens[n]? = some t ∧ t.kind.opensRawText = true ∧
    StartsBefore (tree.ClosedBy (elementAt tokens n)) (tokens.drop (n + 1))

end Tree

/-! ## What a token does to the open elements -/

/-- What a token does: it opens an element, it closes some of those that are open, or it leaves
them as they are. -/
inductive Builder.Took (b b' : Builder) (t : Token) : Prop
  | opens {name : String} {attributes : List RawAttribute} {selfClosing : Bool} (node : Node)
      (kind : t.kind = .startTag name attributes selfClosing)
      (parent : node.parent = b.opened.head?.map (·.1)) (tree : b'.tree = (b.tree.push node).1)
      (opened : Grown.Opens b.opened b'.opened (b.tree.push node).2 t)
  | closes {name : String} (k : Nat) (kind : t.kind = .endTag name)
      (mem : name ∈ b.opened.map (·.2)) (keeps : b.tree.Keeps b'.tree)
      (opened : b'.opened = b.opened.drop (k + 1))
  | passes (kind : startTags [t] = [])
      (not_mem : ∀ name, t.kind = .endTag name → name ∉ b.opened.map (·.2))
      (keeps : b.tree.Keeps b'.tree) (opened : b'.opened = b.opened)

namespace Builder

variable {locator : Locator} {b b' : Builder} {t : Token}

theorem took_endTag {name : String} {span : Span} (h : b.endTag locator name span = .ok b') :
    b.Took b' ⟨.endTag name, span⟩ := by
  obtain ⟨range, hrange, h⟩ := bind_eq_ok_iff.mp h
  obtain ⟨tree, opened, awaiting, warnings⟩ := b
  simp only at h
  cases hfound : opened.findIdx? (·.2 = name) with
  | none =>
    rw [hfound] at h
    cases h
    refine .passes rfl ?_ (Tree.Keeps.refl _) rfl
    rintro name' ⟨⟩ hmem
    obtain ⟨e, he, hname⟩ := List.mem_map.mp hmem
    exact absurd (List.findIdx?_eq_none_iff.mp hfound e he) (by simp [hname])
  | some k =>
    rw [hfound] at h
    cases h
    obtain ⟨hlt, hname, -⟩ := List.findIdx?_eq_some_iff_getElem.mp hfound
    refine .closes k rfl ?_ (Tree.Keeps.stopAt _ _ _) rfl
    exact List.mem_map.mpr ⟨opened[k], List.getElem_mem hlt, of_decide_eq_true hname⟩

theorem took_token (h : b.token locator t = .ok b') : b.Took b' t := by
  obtain ⟨kind, span⟩ := t
  cases kind with
  | startTag name raws selfClosing =>
    obtain ⟨attributes, range, -, -, htree, hopened, -⟩ := startTag_eq_ok h
    refine .opens _ rfl rfl htree ?_
    rw [Grown.Opens, Token.isLeaf_iff rfl, hopened]
    split
    · exact Or.inl rfl
    · next hleaf => exact Or.inr ⟨hleaf, name, rfl⟩
  | endTag name => exact took_endTag h
  | text content =>
    obtain ⟨hopened, -, ⟨-, htree⟩ | ⟨id, range, -, -, htree⟩⟩ := text_eq_ok h
    · exact .passes rfl (fun _ h => by cases h) (htree ▸ Tree.Keeps.refl _) hopened
    · exact .passes rfl (fun _ h => by cases h) (htree ▸ Tree.Keeps.modify _ _ _ _) hopened
  | comment =>
    cases h
    exact .passes rfl (fun _ h => by cases h) (Tree.Keeps.refl _) rfl
  | declaration =>
    cases h
    exact .passes rfl (fun _ h => by cases h) (Tree.Keeps.refl _) rfl

namespace Took

variable (took : b.Took b' t) (hsize : b.tree.size < UInt32.size) {i : NodeId}

include took hsize

theorem retains : b.tree.Retains b'.tree := by
  cases took with
  | opens node _ _ htree _ => exact htree ▸ Tree.retains_push hsize node
  | closes _ _ _ keeps _ => exact keeps.retains
  | passes _ _ keeps _ => exact keeps.retains

theorem hasChild (h : b'.tree.HasChild i) :
    b.tree.HasChild i ∨ startTags [t] ≠ [] ∧ b.opened.head?.map (·.1) = some i := by
  obtain ⟨j, hj⟩ := h
  cases took with
  | opens node hkind hparent htree _ =>
    rw [htree] at hj
    rcases (Tree.parent?_push_eq_some hsize).mp hj with ⟨-, hp⟩ | hj
    · refine Or.inr ⟨?_, hparent ▸ hp⟩
      simp [startTags, hkind]
    · exact Or.inl ⟨j, hj⟩
  | closes _ _ _ keeps _ => exact Or.inl ⟨j, keeps.parent?_eq_some_iff.mp hj⟩
  | passes _ _ keeps _ => exact Or.inl ⟨j, keeps.parent?_eq_some_iff.mp hj⟩

theorem closed {node : Node} (hi : b.tree.get? i = some node) (hclosed : i ∉ openIds b.opened) :
    i ∉ openIds b'.opened := by
  cases took with
  | opens node' _ _ _ hopened =>
    exact hopened.not_mem (Tree.ne_push_of_get? hsize node' hi) hclosed
  | closes k _ _ _ hopened =>
    rw [hopened]
    exact fun hmem => hclosed ((List.map_subset _ (List.drop_subset _ _)) hmem)
  | passes _ _ _ hopened =>
    rw [hopened]
    exact hclosed

end Took

end Builder

/-! ## What all further tokens do -/

theorem Grown.size_lt {locator : Locator} {tree : Tree} {opened : List (NodeId × String)}
    {tags : List Token} {t : Token} (grown : Grown locator tree opened t.span.start tags)
    (short : Text.byteLength locator.file.content.toList < UInt32.size)
    (covers : t.Covers locator.file.content.toList) : tree.size < UInt32.size :=
  Nat.lt_of_le_of_lt grown.size_le (Nat.lt_of_le_of_lt covers.start.le_byteLength short)

theorem Tree.Retains.trans {tree tree' tree'' : Tree} (h : tree.Retains tree')
    (h' : tree'.Retains tree'') : tree.Retains tree'' := by
  intro i a ha
  obtain ⟨a', ha', hkind, hparent⟩ := h i a ha
  obtain ⟨a'', ha'', hkind', hparent'⟩ := h' i a' ha'
  exact ⟨a'', ha'', hkind'.trans hkind, hparent'.trans hparent⟩

theorem Tree.Retains.hasChild {tree tree' : Tree} (h : tree.Retains tree') {i : NodeId} :
    tree.HasChild i → tree'.HasChild i := by
  rintro ⟨j, hj⟩
  obtain ⟨a, ha, -⟩ := Option.bind_eq_some_iff.mp hj
  exact ⟨j, (h.parent?_eq ha).trans hj⟩

namespace Grown

section

variable {locator : Locator} {tree : Tree} {opened : List (NodeId × String)} {k : Nat}
  {tags : List Token} (grown : Grown locator tree opened k tags) {i : NodeId}

include grown

theorem index_lt_of_inside {j : NodeId} (h : tree.Inside j i) : i.index < j.index := by
  induction h with
  | single hp => exact (grown.parent_lt hp).1
  | tail _ hp ih => exact UInt32.lt_trans (grown.parent_lt hp).1 ih

theorem not_mem_openIds_drop (hhead : opened.head?.map (·.1) = some i) (n : Nat) :
    i ∉ openIds (opened.drop (n + 1)) := by
  intro hmem
  have chained := grown.chained
  obtain ⟨e, he, rfl⟩ := Option.map_eq_some_iff.mp hhead
  obtain ⟨rest, rfl⟩ := List.head?_eq_some_iff.mp he
  have hinside := chained.inside_head (List.map_subset _ (List.drop_subset n rest) hmem)
  exact UInt32.lt_irrefl _ (grown.index_lt_of_inside hinside)

end

variable {locator : Locator} (short : Text.byteLength locator.file.content.toList < UInt32.size)
  {more : List Token} {start stop : Nat} {b b' : Builder} {tags : List Token}
  (grown : Grown locator b.tree b.opened start tags) {i : NodeId}

include short grown

/-- The first of some tokens is taken, and the builder that it leaves takes all others. -/
theorem exists_next {t : Token} (tiles : Tiles start (t :: more) stop)
    (covers : t.Covers locator.file.content.toList)
    (h : (t :: more).foldlM (Builder.token · locator) b = .ok b') :
    ∃ next, b.tree.size < UInt32.size ∧ b.Took next t ∧
      Grown locator next.tree next.opened t.span.stop (tags ++ startTags [t]) ∧
      Tiles t.span.stop more stop ∧ more.foldlM (Builder.token · locator) next = .ok b' := by
  obtain ⟨rfl, tiles⟩ := tiles
  rw [List.foldlM_cons] at h
  obtain ⟨next, hnext, h⟩ := bind_eq_ok_iff.mp h
  exact ⟨next, grown.size_lt short covers, Builder.took_token hnext,
    grown.token short covers hnext, tiles, h⟩

variable (covers : ∀ t ∈ more, t.Covers locator.file.content.toList)
  (tiles : Tiles start more stop) (h : more.foldlM (Builder.token · locator) b = .ok b')

include covers tiles h

theorem retains_foldlM : b.tree.Retains b'.tree := by
  induction more generalizing b start tags with
  | nil =>
    cases h
    exact (Tree.Keeps.refl _).retains
  | cons t more ih =>
    obtain ⟨hcovers, covers⟩ := List.forall_mem_cons.mp covers
    obtain ⟨next, hsize, took, hgrown, tiles, h⟩ := grown.exists_next short tiles hcovers h
    exact (took.retains hsize).trans (ih hgrown covers tiles h)

theorem hasChild_of_closed {node : Node} (hi : b.tree.get? i = some node)
    (hclosed : i ∉ openIds b.opened) (hchild : b'.tree.HasChild i) : b.tree.HasChild i := by
  induction more generalizing b start tags node with
  | nil =>
    cases h
    exact hchild
  | cons t more ih =>
    obtain ⟨hcovers, covers⟩ := List.forall_mem_cons.mp covers
    obtain ⟨next, hsize, took, hgrown, tiles, h⟩ := grown.exists_next short tiles hcovers h
    obtain ⟨node', hi', -⟩ := took.retains hsize i node hi
    have hnextChild := ih hgrown covers tiles h hi' (took.closed hsize hi hclosed)
    rcases took.hasChild hsize hnextChild with hchild | ⟨-, hhead⟩
    · exact hchild
    · obtain ⟨e, he, rfl⟩ := Option.map_eq_some_iff.mp hhead
      exact absurd (List.mem_map_of_mem (List.mem_of_head? he)) hclosed

theorem hasChild_iff_startsBefore (hhead : b.opened.head?.map (·.1) = some i)
    (hnone : ¬ b.tree.HasChild i) :
    b'.tree.HasChild i ↔ StartsBefore (· ∈ b.opened.map (·.2)) more := by
  -- on the tokens ahead, as long as the element is the innermost open one and has no child
  induction more generalizing b start tags with
  | nil =>
    cases h
    exact iff_of_false hnone id
  | cons t more ih =>
    obtain ⟨hcovers, covers⟩ := List.forall_mem_cons.mp covers
    obtain ⟨next, hsize, took, hgrown, tiles, h⟩ := grown.exists_next short tiles hcovers h
    cases took with
    | opens node hkind hparent htree hopened =>
      refine iff_of_true ?_ (startsBefore_of_startTag hkind _ _)
      apply (hgrown.retains_foldlM short covers tiles h).hasChild
      refine ⟨(b.tree.push node).2, ?_⟩
      rw [htree, Tree.parent?_push_eq_some hsize]
      exact Or.inl ⟨rfl, hparent.trans hhead⟩
    | closes k hkind hmem keeps hopened =>
      -- whatever is closed, the innermost element is closed with it and gets no more children
      refine iff_of_false ?_ (not_startsBefore_of_endTag hkind hmem _)
      intro hchild
      obtain ⟨e, he, rfl⟩ := Option.map_eq_some_iff.mp hhead
      obtain ⟨node, hnode⟩ :=
        grown.chained.exists_get? (List.mem_map_of_mem (List.mem_of_head? he))
      obtain ⟨node', hnode', -⟩ := keeps.retains _ _ hnode
      have hclosed : e.1 ∉ openIds next.opened := hopened ▸ grown.not_mem_openIds_drop hhead k
      obtain ⟨j, hj⟩ := hgrown.hasChild_of_closed short covers tiles h hnode' hclosed hchild
      exact hnone ⟨j, keeps.parent?_eq_some_iff.mp hj⟩
    | passes hkind hmisses keeps hopened =>
      rw [startsBefore_cons_iff hkind hmisses, ← hopened]
      apply ih hgrown covers tiles h
      · rwa [hopened]
      · rintro ⟨j, hj⟩
        exact hnone ⟨j, keeps.parent?_eq_some_iff.mp hj⟩

end Grown

/-! ## The parsed tree -/

theorem Grown.opens_rawText {locator : Locator} {b b' : Builder} {tags : List Token} {t : Token}
    (grown : Grown locator b.tree b.opened t.span.start tags) (hsize : b.tree.size < UInt32.size)
    (hopens : t.kind.opensRawText = true) (h : b.token locator t = .ok b') :
    b'.opened.head?.map (·.1) = some (Arena.idOf tags.length) ∧
      ¬ b'.tree.HasChild (Arena.idOf tags.length) := by
  have took := Builder.took_token h
  obtain ⟨kind, span⟩ := t
  cases kind with
  | startTag name raws selfClosing =>
    obtain ⟨hself, hraw⟩ := Bool.and_eq_true_iff.mp hopens
    rw [Bool.not_eq_true'] at hself
    subst hself
    obtain ⟨attributes, range, -, -, -, hopened, -⟩ := Builder.startTag_eq_ok h
    let node : Node := ⟨name, range, attributes, none, none, b.opened.head?.map (·.1)⟩
    have hid : (Arena.idOf tags.length : NodeId) = (b.tree.push node).2 := by
      rw [← grown.size_eq]
      rfl
    have hnew (i : NodeId) (hi : ∃ a, b.tree.get? i = some a) : (b.tree.push node).2 ≠ i := by
      obtain ⟨a, ha⟩ := hi
      exact (Tree.ne_push_of_get? hsize node ha).symm
    rw [hid]
    constructor
    · rw [hopened, Builder.voidElements_contains_of_raw hraw]
      rfl
    · intro hchild
      rcases took.hasChild hsize hchild with ⟨j, hj⟩ | ⟨-, hhead⟩
      · exact hnew _ (grown.parent_lt hj).2 rfl
      · obtain ⟨e, he, heq⟩ := Option.map_eq_some_iff.mp hhead
        have hmem := List.mem_map_of_mem (f := (·.1)) (List.mem_of_head? he)
        exact hnew _ (grown.chained.exists_get? hmem) heq.symm
  | _ => cases hopens

theorem Tiles.exists_mid {start stop : Nat} {ts us : List Token} (h : Tiles start (ts ++ us) stop) :
    ∃ mid, Tiles start ts mid ∧ Tiles mid us stop := by
  induction ts generalizing start with
  | nil => exact ⟨start, rfl, h⟩
  | cons t ts ih =>
    obtain ⟨hstart, h⟩ := h
    obtain ⟨mid, hts, hus⟩ := ih h
    exact ⟨mid, ⟨hstart, hts⟩, hus⟩

theorem Tree.closedBy_iff_mem {tree tree' : Tree} {opened : List (NodeId × String)}
    (named : ∀ e ∈ opened, ∃ node, tree.get? e.1 = some node ∧ node.kind = e.2)
    (chained : tree.Chained opened) (retains : tree.Retains tree') {i : NodeId}
    (hhead : opened.head?.map (·.1) = some i) (name : String) :
    name ∈ opened.map (·.2) ↔ tree'.ClosedBy i name := by
  have hparent {j p : NodeId} (hj : j ∈ openIds opened) :
      tree'.parent? j = some p ↔ tree.parent? j = some p := by
    obtain ⟨a, ha⟩ := chained.exists_get? hj
    rw [retains.parent?_eq ha]
  obtain ⟨e₀, he₀, rfl⟩ := Option.map_eq_some_iff.mp hhead
  have hfirst : e₀.1 ∈ openIds opened := List.mem_map_of_mem (List.mem_of_head? he₀)
  -- what is around an open element is open, and no later token changes what is around it
  have hall {j : NodeId} (hinside : tree'.Inside e₀.1 j) : j ∈ openIds opened := by
    induction hinside with
    | single hp => exact chained.parent_mem hfirst ((hparent hfirst).mp hp)
    | tail _ hp ih => exact chained.parent_mem ih ((hparent ih).mp hp)
  constructor
  · intro hmem
    obtain ⟨e, he, rfl⟩ := List.mem_map.mp hmem
    obtain ⟨node, hnode, hkind⟩ := named e he
    obtain ⟨node', hnode', hkind', -⟩ := retains _ _ hnode
    refine ⟨e.1, node', ?_, hnode', hkind'.trans hkind⟩
    obtain ⟨rest, rfl⟩ := List.head?_eq_some_iff.mp he₀
    rcases List.mem_cons.mp he with rfl | he
    · exact Or.inl rfl
    · refine Or.inr ((chained.inside_head (List.mem_map_of_mem he)).mono ?_)
      intro child parent hchild
      obtain ⟨a, ha, -⟩ := Option.bind_eq_some_iff.mp hchild
      exact (retains.parent?_eq ha).trans hchild
  · rintro ⟨j, node', hj, hnode', rfl⟩
    have hopen : j ∈ openIds opened := by
      rcases hj with rfl | hinside
      · exact hfirst
      · exact hall hinside
    obtain ⟨e, he, rfl⟩ := List.mem_map.mp hopen
    obtain ⟨node, hnode, hkind⟩ := named e he
    obtain ⟨node'', hnode'', hkind', -⟩ := retains _ _ hnode
    cases hnode'.symm.trans hnode''
    rw [hkind', hkind]
    exact List.mem_map_of_mem he

theorem hasChild_iff_overruns {locator : Locator}
    (short : Text.byteLength locator.file.content.toList < UInt32.size) {tokens : List Token}
    (covers : ∀ t ∈ tokens, t.Covers locator.file.content.toList) {stop : Nat}
    (tiles : Tiles 0 tokens stop) {warnings : Array Warning} {b : Builder}
    (h : tokens.foldlM (Builder.token · locator) ⟨Tree.empty, [], none, warnings⟩ = .ok b)
    {tree : Tree} (keeps : b.tree.Keeps tree) {n : Nat} {t : Token} (ht : tokens[n]? = some t)
    (hopens : t.kind.opensRawText = true) :
    tree.HasChild (elementAt tokens n) ↔ tree.Overruns tokens n := by
  -- the tokens before the tag, the tag itself, and those behind it each leave a builder
  have hsplit : tokens = tokens.take n ++ t :: tokens.drop (n + 1) := by
    obtain ⟨hlt, rfl⟩ := List.getElem?_eq_some_iff.mp ht
    conv => lhs; rw [← List.take_append_drop n tokens, List.drop_eq_getElem_cons hlt]
  rw [hsplit] at tiles covers h
  obtain ⟨hbefore, hcovers⟩ := List.forall_mem_append.mp covers
  obtain ⟨hcover, hbehind⟩ := List.forall_mem_cons.mp hcovers
  obtain ⟨_, tilesBefore, rfl, tilesBehind⟩ := tiles.exists_mid
  rw [List.foldlM_append] at h
  obtain ⟨b₀, hb₀, h⟩ := bind_eq_ok_iff.mp h
  rw [List.foldlM_cons] at h
  obtain ⟨b₁, hb₁, h⟩ := bind_eq_ok_iff.mp h
  have grown₀ := (Grown.empty _).foldlM short hbefore tilesBefore hb₀
  have heard := (Builder.Heard.start _ warnings).foldlM short hbefore tilesBefore
    (Grown.empty _) hb₀
  obtain ⟨hhead, hnone⟩ := grown₀.opens_rawText (grown₀.size_lt short hcover) hopens hb₁
  have named := (heard.token short hcover grown₀ hb₁).named
  have grown₁ := grown₀.token short hcover hb₁
  have retains := (grown₁.retains_foldlM short hbehind tilesBehind h).trans keeps.retains
  have hchild := grown₁.hasChild_iff_startsBefore short hbehind tilesBehind h hhead hnone
  rw [StartsBefore.congr (Tree.closedBy_iff_mem named grown₁.chained retains hhead)] at hchild
  have hsame : tree.HasChild (elementAt tokens n) ↔ b.tree.HasChild (elementAt tokens n) :=
    exists_congr fun _ => keeps.parent?_eq_some_iff
  rw [hsame]
  refine hchild.trans ⟨fun hstarts => ⟨t, ht, hopens, hstarts⟩, ?_⟩
  rintro ⟨-, -, -, hstarts⟩
  exact hstarts

/-- An element that overruns has an end tag of a longer name behind its text. -/
theorem longer_of_overruns {source : String} {parsed : Parsed} {url : Path}
    {offset : Option Offset} (short : Text.byteLength source.toList < UInt32.size)
    (h : parse url source offset = .ok parsed) {n : Nat}
    (hoverruns : parsed.tree.Overruns (lex source).tokens n) :
    ∃ name attributes span more span',
      (lex source).tokens[n]? = some ⟨.startTag name attributes false, span⟩ ∧
      isRawTextElement name = true ∧ more ≠ "" ∧
      (lex source).tokens[n + 2]? = some ⟨.endTag (name ++ more), span'⟩ := by
  obtain ⟨t, ht, hopens, hstarts⟩ := hoverruns
  obtain ⟨-, node, hnode, _, _, hkind, -⟩ := (grown_parse short h).exists_elementAt short ht
    (startTags_eq_self (Or.inl hopens))
  obtain ⟨name, attributes, span, content, span', tail, rfl, hdrop, htail⟩ :=
    behind_rawText (Cursor.in_start source) ht hopens
  rw [← lex_eq_lexed] at hdrop
  have hname : node.kind = name := (TokenKind.startTag.inj hkind).1.symm
  rw [hdrop, startsBefore_cons_iff rfl nofun] at hstarts
  rcases htail with rfl | ⟨more, span'', rest, rfl⟩
  · exact hstarts.elim
  · refine ⟨name, attributes, span, more, span'', ht, hopens, ?_, ?_⟩
    · rintro rfl
      exact hstarts.1 ⟨_, node, Or.inl rfl, hnode, by rw [hname, String.append_empty]⟩
    · rw [← List.getElem?_drop (i := n + 1) (j := 1), hdrop]
      rfl

/-- Elements of raw text hold no others just if none of them overruns, and behind the text of one
that does is an end tag of a longer name. -/
theorem leaves_parse (url : Path) (source : String) (offset : Option Offset)
    (short : Text.byteLength source.toList < UInt32.size) :
    let locator : Locator := ⟨SourceFile.ofContent url source, offset⟩
    let tokens := (lex source).tokens
    (locator.Fits → ∃ parsed, parse url source offset = .ok parsed) ∧
      ∀ parsed, parse url source offset = .ok parsed →
        ((∀ i p, parsed.tree.parent? i = some p → ¬ parsed.tree.HasRaw p) ↔
          ∀ n, ¬ parsed.tree.Overruns tokens n) ∧
        ∀ n, parsed.tree.Overruns tokens n →
          ∃ name attributes span more span',
            tokens[n]? = some ⟨.startTag name attributes false, span⟩ ∧
            isRawTextElement name = true ∧ more ≠ "" ∧
            tokens[n + 2]? = some ⟨.endTag (name ++ more), span'⟩ := by
  intro locator tokens
  refine ⟨exists_parse, fun parsed h => ⟨?_, fun n => longer_of_overruns short h⟩⟩
  have grown := grown_parse short h
  obtain ⟨warnings, b, stop, hb, -, -, htree⟩ := exists_builder_of_parse short h
  have keeps : b.tree.Keeps parsed.tree := htree ▸ Tree.Keeps.stopAt _ _ _
  have hchild {n : Nat} {t : Token} (ht : tokens[n]? = some t)
      (hopens : t.kind.opensRawText = true) :
      parsed.tree.HasChild (elementAt tokens n) ↔ parsed.tree.Overruns tokens n :=
    hasChild_iff_overruns short (covers_lex source) (tiles_lex source) hb keeps ht hopens
  constructor
  · intro hleaves n hoverruns
    have ⟨t, ht, hopens, _⟩ := hoverruns
    obtain ⟨j, hj⟩ := (hchild ht hopens).mpr hoverruns
    obtain ⟨-, node, hnode, attributes, selfClosing, hkind, -⟩ :=
      grown.exists_elementAt short ht (startTags_eq_self (Or.inl hopens))
    rw [hkind] at hopens
    exact hleaves j _ hj ⟨node, hnode, (Bool.and_eq_true_iff.mp hopens).2⟩
  · rintro hnone i p hi ⟨node, hnode, hraw⟩
    obtain ⟨t, ht, attributes, selfClosing, hkind, -⟩ := grown.made hnode
    have hleaf := grown.not_isLeaf ht (Or.inr ⟨i, hi⟩)
    have hself : selfClosing = false := by
      rw [Token.isLeaf_iff hkind, Bool.or_eq_true, not_or, Bool.not_eq_true] at hleaf
      exact hleaf.1
    have hopens : t.kind.opensRawText = true := by
      rw [hkind, hself]
      exact hraw
    obtain ⟨n, htoken, rfl⟩ := exists_elementAt_eq ht
    exact hnone n ((hchild htoken hopens).mp ⟨i, hi⟩)

/-- A script with an end tag in capital letters, inside an element with a longer name. -/
def endedPage : String := "<scriptx><script>a</SCRIPT\n/><b>"

theorem tokens_endedPage : (lex endedPage).tokens =
    [⟨.startTag "scriptx" [] false, ⟨0, 9⟩⟩, ⟨.startTag "script" [] false, ⟨9, 17⟩⟩,
      ⟨.text "a", ⟨17, 18⟩⟩, ⟨.endTag "script", ⟨18, 29⟩⟩, ⟨.startTag "b" [] false, ⟨29, 32⟩⟩] := by
  decide +kernel

theorem leaves_parse_endedPage :
    Text.byteLength endedPage.toList < UInt32.size ∧
      ∃ parsed, parse ⟨"a.html"⟩ endedPage (some ⟨3, 5⟩) = .ok parsed ∧
        ∀ i p, parsed.tree.parent? i = some p → ¬ parsed.tree.HasRaw p := by
  have short : Text.byteLength endedPage.toList < UInt32.size := by decide +kernel
  have fits : Locator.Fits ⟨SourceFile.ofContent ⟨"a.html"⟩ endedPage, some ⟨3, 5⟩⟩ := by
    apply Locator.Fits.of_le
    intro o ho
    cases ho
    decide +kernel
  obtain ⟨hexists, hall⟩ := leaves_parse ⟨"a.html"⟩ endedPage (some ⟨3, 5⟩) short
  obtain ⟨parsed, hparsed⟩ := hexists fits
  obtain ⟨hleaves, hlonger⟩ := hall parsed hparsed
  refine ⟨short, parsed, hparsed, hleaves.mpr ?_⟩
  -- the only end tag behind a text has the name of the script
  intro n hoverruns
  obtain ⟨name, attributes, span, more, span', htag, hraw, hmore, hend⟩ := hlonger n hoverruns
  rw [tokens_endedPage] at htag hend
  match n with
  | 0 =>
    cases htag
    exact absurd hraw (by decide)
  | 1 =>
    cases htag
    have hname := TokenKind.endTag.inj (Token.mk.inj (Option.some.inj hend)).1
    have hlength := congrArg String.length hname
    rw [String.length_append] at hlength
    exact hmore (String.length_eq_zero_iff.mp (by omega))
  | 2 => cases htag
  | 3 => cases htag
  | n + 4 => cases hend

/-- A script whose text ends at an end tag that closes nothing. -/
def unclosedPage : String := "<script></scriptx><b>"

/-- An element of raw text is not always a leaf. -/
theorem hasRaw_parent_unclosedPage :
    ∃ parsed, parse ⟨"a.html"⟩ unclosedPage none = .ok parsed ∧
      parsed.tree.parent? ⟨1⟩ = some ⟨0⟩ ∧ parsed.tree.HasRaw ⟨0⟩ := by
  have hscript : (parse ⟨"a.html"⟩ unclosedPage none).map (fun parsed =>
      (parsed.tree.parent? ⟨1⟩, (parsed.tree.get? ⟨0⟩).map (·.kind))) =
        .ok (some ⟨0⟩, some "script") := by
    decide +kernel
  obtain ⟨parsed, hparsed, hfound⟩ := map_eq_ok_iff.mp hscript
  obtain ⟨hparent, hkind⟩ := Prod.mk.inj hfound
  obtain ⟨node, hnode, hkind⟩ := Option.map_eq_some_iff.mp hkind
  exact ⟨parsed, hparsed, hparent, node, hnode, by rw [hkind]; rfl⟩

end PageLint.Markup
