import PageLint.Proofs.Markup.Growing
import PageLint.Proofs.Markup.Located
import PageLint.Proofs.Markup.TokenStream

/-!
# Elements that have text

The elements of a page go with its start tags one by one. However the tags are nested, an
element has raw text if its start tag opens raw text, and only then: a text goes to an open
script or style element, and right behind the start tag of such an element there is one.
-/

namespace PageLint

theorem forall₂_modify {α β : Type} {R : α → β → Prop} {as : List α} {bs : List β}
    (h : List.Forall₂ R as bs) {i : Nat} {f : α → α}
    (hf : ∀ a b, bs[i]? = some b → R a b → R (f a) b) : List.Forall₂ R (as.modify i f) bs := by
  induction h generalizing i with
  | nil => simp
  | cons hab hrest ih =>
    cases i with
    | zero => exact .cons (hf _ _ rfl hab) hrest
    | succ i => exact .cons hab (ih hf)

theorem modify_concat {α : Type} (as : List α) (a : α) (f : α → α) :
    (as ++ [a]).modify as.length f = as ++ [f a] := by
  induction as with
  | nil => rfl
  | cons b as ih => exact congrArg (List.cons b) ih

theorem Arena.values_modify {ι α : Type} [StoreId ι] (a : Arena ι α) (id : ι) (f : α → α) :
    (a.modify id f).values = a.values.modify (StoreId.index id).toNat f := by
  simp [values, modify]

namespace Markup

variable {file : SourceFile}

theorem TokenKind.exists_of_opensRawText {kind : TokenKind} (h : kind.opensRawText = true) :
    ∃ name attributes, kind = .startTag name attributes false ∧ isRawTextElement name = true := by
  cases kind with
  | startTag name attributes selfClosing =>
    obtain ⟨hclosing, hraw⟩ := Bool.and_eq_true_iff.mp h
    cases selfClosing with
    | false => exact ⟨name, attributes, rfl, hraw⟩
    | true => cases hclosing
  | endTag _ => cases h
  | text _ => cases h
  | comment => cases h
  | declaration => cases h

theorem TokenKind.exists_of_isText {kind : TokenKind} (h : kind.isText = true) :
    ∃ content, kind = .text content := by
  cases kind with
  | text content => exact ⟨content, rfl⟩
  | startTag _ _ _ => cases h
  | endTag _ => cases h
  | comment => cases h
  | declaration => cases h

/-- The element is that of a start tag, with text if the tag opens raw text. -/
structure Node.Bodied (file : SourceFile) (node : Node) (t : Token) : Prop where
  kind : ∃ selfClosing, t.kind = .startTag node.kind t.attributes selfClosing
  attributes : node.attributes = t.attributes.map (·.located file)
  text : node.text.isSome = t.kind.opensRawText
  textRange : node.textRange.isSome = t.kind.opensRawText

theorem Node.bodied_of_startTag {node : Node} {t : Token} {attributes : List RawAttribute}
    {selfClosing : Bool} (hkind : t.kind = .startTag node.kind attributes selfClosing)
    (hattributes : node.attributes = attributes.map (·.located file))
    (htext : node.text.isSome = t.kind.opensRawText)
    (htextRange : node.textRange.isSome = t.kind.opensRawText) : node.Bodied file t := by
  have hraw : t.attributes = attributes := by rw [Token.attributes, hkind]
  refine ⟨⟨selfClosing, ?_⟩, ?_, htext, htextRange⟩
  · rw [hraw, hkind]
  · rw [hraw, hattributes]

theorem Node.Bodied.stopAt {node : Node} {t : Token} (h : node.Bodied file t) (stop : Position) :
    ({ node with range := { node.range with stop } } : Node).Bodied file t :=
  ⟨h.kind, h.attributes, h.text, h.textRange⟩

theorem Node.Bodied.filled {node : Node} {t : Token} (h : node.Bodied file t)
    (hopens : t.kind.opensRawText = true) (range : SourceRange) (content : String) :
    ({ node with textRange := some range, text := some content } : Node).Bodied file t :=
  ⟨h.kind, h.attributes, hopens.symm, hopens.symm⟩

/-- The start tag of the element opens raw text. -/
def OpensAt (tags : List Token) (id : NodeId) : Prop :=
  ∃ t, tags[id.index.toNat]? = some t ∧ t.kind.opensRawText = true

theorem OpensAt.append {tags : List Token} {id : NodeId} (h : OpensAt tags id)
    (more : List Token) : OpensAt (tags ++ more) id := by
  obtain ⟨t, ht, hopens⟩ := h
  obtain ⟨hlt, -⟩ := List.getElem?_eq_some_iff.mp ht
  exact ⟨t, (List.getElem?_append_left hlt).trans ht, hopens⟩

namespace Builder

/-- The elements are those of some start tags, and text can only go to those that have it. -/
structure Bodied (file : SourceFile) (b : Builder) (tags : List Token) : Prop where
  nodes : List.Forall₂ (Node.Bodied file) b.tree.nodes.values tags
  opened : ∀ e ∈ b.opened, isRawTextElement e.2 = true → OpensAt tags e.1
  awaiting : ∀ id, b.awaiting = some id → OpensAt tags id

theorem voidElements_contains_of_raw {name : String} (h : isRawTextElement name = true) :
    voidElements.contains name = false := by
  rcases isRawTextElement_iff.mp h with rfl | rfl
  · decide
  · decide

theorem innermostRawText_eq_some_iff {opened : List (NodeId × String)} {id : NodeId} :
    innermostRawText opened = some id ↔
      ∃ e, opened.head? = some e ∧ e.1 = id ∧ isRawTextElement e.2 = true := by
  cases opened with
  | nil => simp [innermostRawText]
  | cons e opened => simp [innermostRawText, and_comm]

namespace Bodied

variable {b : Builder} {tags : List Token}

theorem size_eq (h : b.Bodied file tags) : b.tree.size = tags.length := by
  rw [← h.nodes.length_eq]
  exact Array.length_toList.symm

theorem nodes_stopAt {tree : Tree} (h : List.Forall₂ (Node.Bodied file) tree.nodes.values tags)
    (stop : Position) (ids : List (NodeId × String)) :
    List.Forall₂ (Node.Bodied file) (stopAt tree stop ids).nodes.values tags := by
  induction ids generalizing tree with
  | nil => exact h
  | cons id ids ih =>
    apply ih
    change List.Forall₂ _ (tree.nodes.modify id.1 _).values tags
    rw [Arena.values_modify]
    exact forall₂_modify h fun node t _ hnode => hnode.stopAt stop

/-- What is open after a start tag, and what waits for text. -/
theorem waits_opening (h : b.Bodied file tags) (fits : tags.length < UInt32.size) {t : Token}
    {name : String} {attributes : List RawAttribute} {selfClosing : Bool}
    (hkind : t.kind = .startTag name attributes selfClosing) (span : Span) :
    let b' := b.opening file name attributes selfClosing span
    (∀ e ∈ b'.opened, isRawTextElement e.2 = true → OpensAt (tags ++ [t]) e.1) ∧
      ∀ id, b'.awaiting = some id → OpensAt (tags ++ [t]) id := by
  intro b'
  have hopened : ∀ e ∈ b'.opened, isRawTextElement e.2 = true → OpensAt (tags ++ [t]) e.1 := by
    intro e he hraw
    have hold : e ∈ b.opened → OpensAt (tags ++ [t]) e.1 :=
      fun he => (h.opened e he hraw).append [t]
    simp only [b', opening] at he
    split at he
    · exact hold he
    · next hleaf =>
      rcases List.mem_cons.mp he with rfl | he
      · -- the new element has the place behind all others, and its tag is not self-closing
        have hclosing : selfClosing = false := by
          cases selfClosing with
          | false => rfl
          | true => exact absurd rfl hleaf
        refine ⟨t, ?_, ?_⟩
        · rw [Tree.index_push (h.size_eq ▸ fits), h.size_eq, List.getElem?_concat_length]
        · rw [hkind, hclosing]
          exact hraw
      · exact hold he
  refine ⟨hopened, ?_⟩
  intro id hid
  change (if selfClosing then none else innermostRawText b'.opened) = some id at hid
  split at hid
  · cases hid
  · obtain ⟨e, he, rfl, hraw⟩ := innermostRawText_eq_some_iff.mp hid
    exact hopened e (List.mem_of_head? he) hraw

theorem closing (h : b.Bodied file tags) (name : String) (span : Span) :
    (b.closing file name span).Bodied file tags := by
  unfold Builder.closing
  split
  · exact ⟨h.nodes, h.opened, nofun⟩
  · exact ⟨nodes_stopAt h.nodes _ _, fun e he => h.opened e (List.mem_of_mem_drop he), nofun⟩

theorem filling (h : b.Bodied file tags) (content : String) (span : Span) :
    (b.filling file content span).Bodied file tags := by
  unfold Builder.filling
  split
  · exact h
  · next id hid =>
    obtain ⟨t, ht, hopens⟩ := h.awaiting id hid
    refine ⟨?_, h.opened, nofun⟩
    change List.Forall₂ _ (b.tree.nodes.modify id _).values tags
    rw [Arena.values_modify]
    apply forall₂_modify h.nodes
    intro node t' ht' hnode
    cases ht.symm.trans ht'
    exact hnode.filled hopens _ _

/-- An element without text is added for a tag that opens none. -/
theorem opening (h : b.Bodied file tags) (fits : tags.length < UInt32.size) {t : Token}
    {name : String} {attributes : List RawAttribute} {selfClosing : Bool}
    (hkind : t.kind = .startTag name attributes selfClosing)
    (hopens : t.kind.opensRawText = false) (span : Span) :
    (b.opening file name attributes selfClosing span).Bodied file (tags ++ [t]) := by
  obtain ⟨hopened, hawaiting⟩ := h.waits_opening fits hkind span
  refine ⟨?_, hopened, hawaiting⟩
  change List.Forall₂ _ (b.tree.nodes.alloc _).1.values _
  rw [Arena.values_alloc]
  exact List.rel_append h.nodes
    (.cons (Node.bodied_of_startTag hkind rfl hopens.symm hopens.symm) .nil)

/-- The text behind the start tag of a raw text element goes to that element. -/
theorem opening_filling (h : b.Bodied file tags) (fits : tags.length < UInt32.size) {t : Token}
    {name : String} {attributes : List RawAttribute}
    (hkind : t.kind = .startTag name attributes false) (hraw : isRawTextElement name = true)
    (span : Span) (content : String) (span' : Span) :
    ((b.opening file name attributes false span).filling file content span').Bodied file
      (tags ++ [t]) := by
  obtain ⟨hopened, -⟩ := h.waits_opening fits hkind span
  have hopens : t.kind.opensRawText = true := by
    rw [hkind]
    exact hraw
  let node : Node := ⟨name, file.rangeOf span, attributes.map (·.located file), none, none,
    b.opened.head?.map (·.1)⟩
  have hvoid := voidElements_contains_of_raw hraw
  have hwaits : (b.opening file name attributes false span).awaiting =
      some (b.tree.push node).2 := by
    simp only [Builder.opening, hvoid, Bool.or_self, Bool.false_eq_true, if_false, innermostRawText,
      hraw, if_true]
    rfl
  rw [Builder.filling, hwaits]
  refine ⟨?_, hopened, nofun⟩
  change List.Forall₂ _ ((b.tree.nodes.alloc node).1.modify (b.tree.push node).2 _).values _
  have hindex : (b.tree.push node).2.index.toNat = b.tree.nodes.values.length := by
    rw [Tree.index_push (h.size_eq ▸ fits), h.size_eq, h.nodes.length_eq]
  rw [Arena.values_modify, Arena.values_alloc]
  change List.Forall₂ _ ((b.tree.nodes.values ++ [node]).modify (b.tree.push node).2.index.toNat _) _
  rw [hindex, modify_concat]
  exact List.rel_append h.nodes
    (.cons (Node.bodied_of_startTag hkind rfl hopens.symm hopens.symm) .nil)

theorem taking_single (h : b.Bodied file tags) {t : Token} (hopens : t.kind.opensRawText = false)
    (fits : (tags ++ startTags [t]).length ≤ UInt32.size) :
    (b.taking file t).Bodied file (tags ++ startTags [t]) := by
  have hother : startTags [t] = [] → (b.taking file t).Bodied file tags →
      (b.taking file t).Bodied file (tags ++ startTags [t]) := by
    intro hnone htaken
    rw [hnone, List.append_nil]
    exact htaken
  obtain ⟨kind, span⟩ := t
  cases kind with
  | startTag name attributes selfClosing =>
    rw [List.length_append] at fits
    exact h.opening fits rfl hopens span
  | endTag name => exact hother rfl (h.closing name span)
  | text content => exact hother rfl (h.filling content span)
  | comment => exact hother rfl ⟨h.nodes, h.opened, nofun⟩
  | declaration => exact hother rfl ⟨h.nodes, h.opened, nofun⟩

theorem taking_raw (h : b.Bodied file tags) (fits : tags.length < UInt32.size) {tag text : Token}
    (hopens : tag.kind.opensRawText = true) (htext : text.kind.isText = true) :
    ((b.taking file tag).taking file text).Bodied file (tags ++ [tag]) := by
  obtain ⟨kind, span⟩ := tag
  obtain ⟨kind', span'⟩ := text
  obtain ⟨name, attributes, rfl, hraw⟩ := TokenKind.exists_of_opensRawText hopens
  obtain ⟨content, rfl⟩ := TokenKind.exists_of_isText htext
  exact h.opening_filling fits rfl hraw span content span'

theorem foldl_taking {tokens : List Token} (pieces : InPieces tokens) (h : b.Bodied file tags)
    (fits : (tags ++ startTags tokens).length ≤ UInt32.size) :
    (tokens.foldl (taking file) b).Bodied file (tags ++ startTags tokens) := by
  -- on the pieces, as the text of a raw text element comes only with the next token
  induction pieces generalizing b tags with
  | nil =>
    have hnone : tags ++ startTags [] = tags := List.append_nil tags
    rw [hnone]
    exact h
  | @single t ts hopens _ _ ih =>
    have hcons : startTags (t :: ts) = startTags [t] ++ startTags ts := List.filter_append [t] ts
    rw [hcons, ← List.append_assoc] at fits ⊢
    refine ih (h.taking_single hopens ?_) fits
    rw [List.length_append] at fits
    omega
  | @raw tag text ts hopens _ htext _ _ ih =>
    have hcons : startTags (tag :: text :: ts) = [tag] ++ startTags ts := by
      obtain ⟨kind, span⟩ := tag
      obtain ⟨kind', span'⟩ := text
      obtain ⟨name, attributes, rfl, -⟩ := TokenKind.exists_of_opensRawText hopens
      obtain ⟨content, rfl⟩ := TokenKind.exists_of_isText htext
      rfl
    rw [hcons, ← List.append_assoc] at fits ⊢
    refine ih (h.taking_raw ?_ hopens htext) fits
    rw [List.length_append, List.length_append, List.length_singleton] at fits
    omega

end Bodied

end Builder

/-- The elements of a page are those of its start tags, in their order, and the ones whose
tags open raw text have a text. -/
theorem bodied_parse (url : Path) (contents : String)
    (fits : (startTags (lex contents).tokens).length ≤ UInt32.size) :
    ∃ parsed, parse url contents none = .ok parsed ∧
      List.Forall₂ (Node.Bodied (SourceFile.ofContent url contents)) parsed.tree.nodes.values
        (startTags (lex contents).tokens) := by
  have pieces : InPieces (lex contents).tokens := inPieces_lexed (Cursor.in_start contents)
  have start : Builder.Bodied (SourceFile.ofContent url contents) ⟨Tree.empty, [], none,
      ((lex contents).problems.map (·.located (SourceFile.ofContent url contents))).toArray⟩ [] :=
    ⟨.nil, nofun, nofun⟩
  exact ⟨_, parse_page url contents,
    Builder.Bodied.nodes_stopAt (start.foldl_taking pieces fits).nodes _ _⟩

end Markup

end PageLint
