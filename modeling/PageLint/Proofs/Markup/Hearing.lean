import PageLint.Proofs.Markup.Bodies
import PageLint.Proofs.Markup.Elements

/-!
# Which texts an element is given

A text goes to the raw text element whose start tag it stands right behind, or to the one around
the void element whose tag it stands right behind. Elements keep the last text that they are given.
-/

namespace PageLint.Markup

/-- Whether the token is the tag of a void element that does not close itself. -/
def TokenKind.isVoidTag : TokenKind → Bool
  | .startTag name _ selfClosing => !selfClosing && voidElements.contains name
  | _ => false

theorem startTags_eq_self {t : Token}
    (h : t.kind.opensRawText = true ∨ t.kind.isVoidTag = true) : startTags [t] = [t] := by
  obtain ⟨kind, span⟩ := t
  cases kind with
  | startTag name attributes selfClosing => rfl
  | _ => simp [TokenKind.opensRawText, TokenKind.isVoidTag] at h

/-! ## What an element is given -/

namespace Tree

/-- The element is one of raw text. -/
def HasRaw (tree : Tree) (i : NodeId) : Prop :=
  ∃ node, tree.get? i = some node ∧ isRawTextElement node.kind = true

/-- The element takes a text right behind the `n`-th token: that is its own start tag, or the
void tag of a child. -/
def Takes (tree : Tree) (tokens : List Token) (i : NodeId) (n : Nat) : Prop :=
  ∃ t, tokens[n]? = some t ∧ (t.kind.opensRawText = true ∧ elementAt tokens n = i ∨
    t.kind.isVoidTag = true ∧ tree.parent? (elementAt tokens n) = some i ∧ tree.HasRaw i)

/-- The element is given the text behind the `n`-th token. -/
def Given (tree : Tree) (tokens : List Token) (i : NodeId) (n : Nat) (content : String)
    (span : Span) : Prop :=
  tree.Takes tokens i n ∧ tokens[n + 1]? = some ⟨.text content, span⟩

section

variable {tree : Tree} {tokens : List Token} {i : NodeId} {n : Nat} (t : Token)

theorem takes_concat (hn : n < tokens.length) :
    tree.Takes (tokens ++ [t]) i n ↔ tree.Takes tokens i n := by
  rw [Takes, Takes, List.getElem?_append_left hn, elementAt_concat hn.le]

theorem takes_last : (∃ n, (tokens ++ [t]).length = n + 1 ∧ tree.Takes (tokens ++ [t]) i n) ↔
    t.kind.opensRawText = true ∧ elementAt (tokens ++ [t]) tokens.length = i ∨
      t.kind.isVoidTag = true ∧
        tree.parent? (elementAt (tokens ++ [t]) tokens.length) = some i ∧ tree.HasRaw i := by
  rw [List.length_append, List.length_singleton]
  constructor
  · rintro ⟨n, hn, u, hu, htakes⟩
    cases hn
    rw [List.getElem?_concat_length] at hu
    cases hu
    exact htakes
  · exact fun htakes => ⟨tokens.length, rfl, t, List.getElem?_concat_length, htakes⟩

/-- One more token gives an element something if it is a text where the element takes it. -/
theorem given_concat {content : String} {span : Span} :
    tree.Given (tokens ++ [t]) i n content span ↔ tree.Given tokens i n content span ∨
      tokens.length = n + 1 ∧ tree.Takes tokens i n ∧ t = ⟨.text content, span⟩ := by
  constructor
  · rintro ⟨htakes, hnext⟩
    obtain ⟨hlt, -⟩ := List.getElem?_eq_some_iff.mp hnext
    rw [List.length_append, List.length_singleton] at hlt
    rw [takes_concat t (Nat.lt_of_succ_lt_succ hlt)] at htakes
    rcases Nat.lt_or_eq_of_le (Nat.le_of_lt_succ hlt) with hlt | hlast
    · rw [List.getElem?_append_left hlt] at hnext
      exact Or.inl ⟨htakes, hnext⟩
    · rw [hlast, List.getElem?_concat_length] at hnext
      exact Or.inr ⟨hlast.symm, htakes, Option.some.inj hnext⟩
  · rintro (⟨htakes, hnext⟩ | ⟨hlast, htakes, rfl⟩)
    · obtain ⟨hlt, -⟩ := List.getElem?_eq_some_iff.mp hnext
      refine ⟨(takes_concat t (Nat.lt_of_succ_lt hlt)).mpr htakes, ?_⟩
      rwa [List.getElem?_append_left hlt]
    · refine ⟨(takes_concat _ (by omega)).mpr htakes, ?_⟩
      rw [← hlast, List.getElem?_concat_length]

end

/-- The second tree has all elements of the first, with the same names and parents. -/
def Retains (tree tree' : Tree) : Prop :=
  ∀ i a, tree.get? i = some a →
    ∃ a', tree'.get? i = some a' ∧ a'.kind = a.kind ∧ a'.parent = a.parent

theorem Keeps.retains {tree tree' : Tree} (keeps : tree.Keeps tree') : tree.Retains tree' := by
  intro i a ha
  obtain ⟨a', ha'⟩ := keeps.exists_new ⟨a, ha⟩
  obtain ⟨old, hold, hkind, -⟩ := keeps.exists_old ha'
  cases ha.symm.trans hold
  have hlink := keeps.link?_eq i
  rw [link?, link?, ha, ha'] at hlink
  exact ⟨a', ha', hkind, Option.some.inj hlink⟩

theorem retains_push {tree : Tree} (h : tree.size < UInt32.size) (node : Node) :
    tree.Retains (tree.push node).1 :=
  fun _ a ha => ⟨a, get?_push_of_get? h node ha, rfl, rfl⟩

namespace Retains

variable {tree tree' : Tree} (retains : tree.Retains tree') {i : NodeId} {a : Node}
  (ha : tree.get? i = some a)

include retains ha

theorem parent?_eq : tree'.parent? i = tree.parent? i := by
  obtain ⟨a', ha', -, hparent⟩ := retains i a ha
  rw [parent?, parent?, ha, ha', Option.bind_some, Option.bind_some, hparent]

theorem hasRaw_iff : tree'.HasRaw i ↔ tree.HasRaw i := by
  obtain ⟨a', ha', hkind, -⟩ := retains i a ha
  simp [HasRaw, ha, ha', hkind]

end Retains

end Tree

namespace Grown

variable {locator : Locator} {tree tree' : Tree} {opened : List (NodeId × String)} {k : Nat}
  {tokens : List Token} (grown : Grown locator tree opened k (startTags tokens))
  (hk : k < UInt32.size) {i : NodeId} {n : Nat}

include grown hk

theorem exists_of_takes (h : tree.Takes tokens i n) : ∃ node, tree.get? i = some node := by
  obtain ⟨t, ht, ⟨hopens, rfl⟩ | ⟨-, -, node, hnode, -⟩⟩ := h
  · obtain ⟨-, node, hnode, -⟩ :=
      grown.exists_elementAt hk ht (startTags_eq_self (Or.inl hopens))
    exact ⟨node, hnode⟩
  · exact ⟨node, hnode⟩

variable (retains : tree.Retains tree')

include retains

theorem takes_iff : tree'.Takes tokens i n ↔ tree.Takes tokens i n := by
  refine exists_congr fun u => and_congr_right fun hu => or_congr Iff.rfl ?_
  refine and_congr_right fun hvoid => ?_
  obtain ⟨-, a, ha, -⟩ := grown.exists_elementAt hk hu (startTags_eq_self (Or.inr hvoid))
  rw [retains.parent?_eq ha]
  refine and_congr_right fun hparent => ?_
  obtain ⟨-, p, hp⟩ := grown.parent_lt hparent
  exact retains.hasRaw_iff hp

theorem given_iff {content : String} {span : Span} :
    tree'.Given tokens i n content span ↔ tree.Given tokens i n content span :=
  and_congr_left fun _ => grown.takes_iff hk retains

end Grown

/-! ## What an element has -/

/-- The element has the text at a span of the markup. -/
def Node.HasText (locator : Locator) (node : Node) (content : String) (span : Span) : Prop :=
  node.text = some content ∧ ∃ range, node.textRange = some range ∧ locator.range span = .ok range

/-- The element has the last of the texts that it is given, and none if it is given none. -/
def Node.HasLast (locator : Locator) (node : Node) (given : Nat → String → Span → Prop) : Prop :=
  (∀ n content span, ¬ given n content span) ∧ node.text = none ∧ node.textRange = none ∨
    ∃ n content span, given n content span ∧ node.HasText locator content span ∧
      ∀ m content' span', given m content' span' → m ≤ n

theorem Node.HasLast.congr {locator : Locator} {node node' : Node}
    {given given' : Nat → String → Span → Prop} (h : node.HasLast locator given)
    (htext : node'.text = node.text) (htextRange : node'.textRange = node.textRange)
    (hgiven : ∀ n content span, given' n content span ↔ given n content span) :
    node'.HasLast locator given' := by
  have hsame : given' = given := by
    funext n content span
    exact propext (hgiven n content span)
  unfold Node.HasLast Node.HasText
  rw [hsame, htext, htextRange]
  exact h

/-- The elements of the second tree have the texts that they have in the first. -/
def Tree.SameTexts (tree tree' : Tree) : Prop :=
  ∀ {i a'}, tree'.get? i = some a' →
    ∃ a, tree.get? i = some a ∧ a'.text = a.text ∧ a'.textRange = a.textRange

theorem Tree.SameTexts.refl (tree : Tree) : tree.SameTexts tree := fun h => ⟨_, h, rfl, rfl⟩

theorem Tree.SameTexts.stopAt (tree : Tree) (stop : Position) (ids : List (NodeId × String)) :
    tree.SameTexts (stopAt tree stop ids) := by
  intro i a h
  rw [get?_stopAt] at h
  obtain ⟨old, hold, rfl⟩ := Option.map_eq_some_iff.mp h
  refine ⟨old, hold, ?_⟩
  split
  · exact ⟨rfl, rfl⟩
  · exact ⟨rfl, rfl⟩

/-- What a builder has heard: it knows the names of the open elements and which one takes a text
right behind the last token, and every element has the last of the texts it was given. -/
structure Builder.Heard (locator : Locator) (tokens : List Token) (b : Builder) : Prop where
  named : ∀ e ∈ b.opened, ∃ node, b.tree.get? e.1 = some node ∧ node.kind = e.2
  awaiting (i : NodeId) :
    b.awaiting = some i ↔ ∃ n, tokens.length = n + 1 ∧ b.tree.Takes tokens i n
  last {i : NodeId} {node : Node} (h : b.tree.get? i = some node) :
    node.HasLast locator (b.tree.Given tokens i)

namespace Builder.Heard

variable {locator : Locator} {b b' : Builder} {tokens : List Token} {k : Nat}

theorem exists_named_of_retains {tree tree' : Tree} (retains : tree.Retains tree')
    {e : NodeId × String} (h : ∃ node, tree.get? e.1 = some node ∧ node.kind = e.2) :
    ∃ node, tree'.get? e.1 = some node ∧ node.kind = e.2 := by
  obtain ⟨a, ha, hname⟩ := h
  obtain ⟨a', ha', hkind, -⟩ := retains e.1 a ha
  exact ⟨a', ha', hkind.trans hname⟩

/-- The innermost open element by what the tree knows of it. -/
theorem innermostRawText_eq_some_iff_hasRaw {tree : Tree} {opened : List (NodeId × String)}
    (named : ∀ e ∈ opened, ∃ node, tree.get? e.1 = some node ∧ node.kind = e.2) {i : NodeId} :
    innermostRawText opened = some i ↔ opened.head?.map (·.1) = some i ∧ tree.HasRaw i := by
  rw [innermostRawText_eq_some_iff, Option.map_eq_some_iff]
  constructor
  · rintro ⟨e, he, rfl, hraw⟩
    obtain ⟨node, hnode, hkind⟩ := named e (List.mem_of_head? he)
    exact ⟨⟨e, he, rfl⟩, node, hnode, hkind ▸ hraw⟩
  · rintro ⟨⟨e, he, rfl⟩, node, hnode, hraw⟩
    obtain ⟨node', hnode', hkind⟩ := named e (List.mem_of_head? he)
    cases hnode.symm.trans hnode'
    exact ⟨e, he, rfl, hkind ▸ hraw⟩

theorem innermostRawText_opening {tree : Tree} {opened : List (NodeId × String)}
    (named : ∀ e ∈ opened, ∃ node, tree.get? e.1 = some node ∧ node.kind = e.2) (id i : NodeId)
    (name : String) (selfClosing : Bool) :
    (if selfClosing then none else innermostRawText
      (if selfClosing || voidElements.contains name then opened else (id, name) :: opened)) =
        some i ↔
      (!selfClosing && isRawTextElement name) = true ∧ id = i ∨
        (!selfClosing && voidElements.contains name) = true ∧
          opened.head?.map (·.1) = some i ∧ tree.HasRaw i := by
  cases selfClosing with
  | true => simp
  | false =>
    cases hvoid : voidElements.contains name with
    | true =>
      have hraw : isRawTextElement name = false := by
        rw [Bool.eq_false_iff]
        intro hraw
        rw [voidElements_contains_of_raw hraw] at hvoid
        cases hvoid
      simpa [hraw] using innermostRawText_eq_some_iff_hasRaw named
    | false => simp [innermostRawText_eq_some_iff, and_comm]

/-- After a token that is no start tag, nothing takes a text. -/
theorem of_last (heard : b.Heard locator tokens) {t : Token} (hstart : startTags [t] = [])
    (retains : b.tree.Retains b'.tree) (opened : ∀ e ∈ b'.opened, e ∈ b.opened)
    (awaiting : b'.awaiting = none)
    (last : ∀ i node, b'.tree.get? i = some node →
      node.HasLast locator (b'.tree.Given (tokens ++ [t]) i)) :
    b'.Heard locator (tokens ++ [t]) := by
  refine ⟨?_, ?_, last _ _⟩
  · exact fun e he => exists_named_of_retains retains (heard.named e (opened e he))
  · intro i
    rw [awaiting, Tree.takes_last]
    constructor
    · exact nofun
    · intro htakes
      rw [startTags_eq_self (htakes.imp And.left And.left)] at hstart
      cases hstart

section

variable (heard : b.Heard locator tokens)
  (grown : Grown locator b.tree b.opened k (startTags tokens)) (hk : k < UInt32.size) {t : Token}

include heard grown hk

theorem last_of_eq (retains : b.tree.Retains b'.tree) {i : NodeId}
    (hquiet : t.kind.isText = true → b.awaiting ≠ some i) {node node' : Node}
    (hnode : b.tree.get? i = some node) (htext : node'.text = node.text)
    (htextRange : node'.textRange = node.textRange) :
    node'.HasLast locator (b'.tree.Given (tokens ++ [t]) i) := by
  apply (heard.last hnode).congr htext htextRange
  intro n content span
  rw [Tree.given_concat, grown.given_iff hk retains]
  refine or_iff_left ?_
  rintro ⟨hlast, htakes, rfl⟩
  rw [grown.takes_iff hk retains] at htakes
  exact hquiet rfl ((heard.awaiting i).mpr ⟨n, hlast, htakes⟩)

theorem unchanged (hstart : startTags [t] = [])
    (hquiet : t.kind.isText = true → b.awaiting = none) (keeps : b.tree.Keeps b'.tree)
    (same : b.tree.SameTexts b'.tree) (opened : ∀ e ∈ b'.opened, e ∈ b.opened)
    (awaiting : b'.awaiting = none) : b'.Heard locator (tokens ++ [t]) := by
  apply heard.of_last hstart keeps.retains opened awaiting
  intro i node hnode
  obtain ⟨old, hold, htext, htextRange⟩ := same hnode
  apply heard.last_of_eq grown hk keeps.retains _ hold htext htextRange
  intro htext
  rw [hquiet htext]
  exact nofun

/-- The element that waits for a text has that text from then on. -/
theorem filled {content : String} {span : Span} (ht : t = ⟨.text content, span⟩) {id : NodeId}
    (hid : b.awaiting = some id) {range : SourceRange} (hrange : locator.range span = .ok range)
    (htree : b'.tree = b.tree.modify id fun node =>
      { node with textRange := some range, text := some content })
    (hopened : b'.opened = b.opened) (hawaiting : b'.awaiting = none) :
    b'.Heard locator (tokens ++ [t]) := by
  have retains : b.tree.Retains b'.tree := htree ▸ (Tree.Keeps.modify _ _ _ _).retains
  have hstart : startTags [t] = [] := by
    rw [ht]
    rfl
  apply heard.of_last hstart retains (fun e he => hopened ▸ he) hawaiting
  intro i node hnode
  rw [htree, Tree.get?_modify] at hnode
  obtain ⟨old, hold, rfl⟩ := Option.map_eq_some_iff.mp hnode
  split
  · next hi =>
    obtain ⟨n, hn, htakes⟩ := (heard.awaiting i).mp (hi ▸ hid)
    refine Or.inr ⟨n, content, span, ?_, ⟨rfl, range, rfl, hrange⟩, ?_⟩
    · rw [Tree.given_concat, grown.takes_iff hk retains]
      exact Or.inr ⟨hn, htakes, ht⟩
    · rintro m content' span' ⟨-, hnext⟩
      obtain ⟨hlt, -⟩ := List.getElem?_eq_some_iff.mp hnext
      rw [List.length_append, List.length_singleton] at hlt
      omega
  · next hi =>
    apply heard.last_of_eq grown hk retains _ hold rfl rfl
    intro _ hi'
    exact hi (Option.some.inj (hid.symm.trans hi'))

/-- A new element has no text, and it may be the one that takes a text right behind its tag. -/
theorem push {name : String} {attributes : List RawAttribute} {selfClosing : Bool}
    (hkind : t.kind = .startTag name attributes selfClosing) (hsize : b.tree.size < UInt32.size)
    {node : Node} (hname : node.kind = name) (hparent : node.parent = b.opened.head?.map (·.1))
    (htext : node.text = none) (htextRange : node.textRange = none)
    (htree : b'.tree = (b.tree.push node).1)
    (hopened : b'.opened = if selfClosing || voidElements.contains name then b.opened
      else ((b.tree.push node).2, name) :: b.opened)
    (hawaiting : b'.awaiting = if selfClosing then none else innermostRawText b'.opened) :
    b'.Heard locator (tokens ++ [t]) := by
  have retains : b.tree.Retains b'.tree := htree ▸ Tree.retains_push hsize node
  have hnew : b'.tree.get? (b.tree.push node).2 = some node :=
    htree ▸ Tree.get?_push_self hsize node
  have hid : (b.tree.push node).2 = elementAt (tokens ++ [t]) tokens.length := by
    rw [elementAt, List.take_left, ← grown.size_eq]
    rfl
  have named : ∀ e ∈ b.opened, ∃ node, b'.tree.get? e.1 = some node ∧ node.kind = e.2 :=
    fun e he => exists_named_of_retains retains (heard.named e he)
  refine ⟨?_, ?_, ?_⟩
  · intro e he
    rw [hopened] at he
    split at he
    · exact named e he
    · rcases List.mem_cons.mp he with rfl | he
      · exact ⟨node, hnew, hname⟩
      · exact named e he
  · intro i
    have hparent' : b'.tree.parent? (b.tree.push node).2 = b.opened.head?.map (·.1) := by
      rw [Tree.parent?, hnew, Option.bind_some, hparent]
    rw [hawaiting, hopened, Tree.takes_last, ← hid, hparent', hkind]
    exact innermostRawText_opening named _ _ _ _
  · intro i a ha
    rw [htree] at ha
    rcases (Tree.get?_push_eq_some hsize).mp ha with ⟨rfl, rfl⟩ | hold
    · refine Or.inl ⟨?_, htext, htextRange⟩
      intro n content span hgiven
      rcases (Tree.given_concat t).mp hgiven with ⟨htakes, -⟩ | ⟨-, -, htext⟩
      · rw [grown.takes_iff hk retains] at htakes
        obtain ⟨a', ha'⟩ := grown.exists_of_takes hk htakes
        rw [Tree.get?_push_new hsize] at ha'
        cases ha'
      · rw [htext] at hkind
        cases hkind
    · apply heard.last_of_eq grown hk retains _ hold rfl rfl
      intro htext
      rw [hkind] at htext
      cases htext

end

theorem token (short : Text.byteLength locator.file.content.toList < UInt32.size)
    (covers : t.Covers locator.file.content.toList) (heard : b.Heard locator tokens)
    (grown : Grown locator b.tree b.opened t.span.start (startTags tokens))
    (h : b.token locator t = .ok b') : b'.Heard locator (tokens ++ [t]) := by
  have hk : t.span.start < UInt32.size :=
    Nat.lt_of_le_of_lt covers.start.le_byteLength short
  obtain ⟨kind, span⟩ := t
  cases kind with
  | startTag name raws selfClosing =>
    obtain ⟨attributes, range, -, -, htree, hopened, hawaiting⟩ := startTag_eq_ok h
    have hsize : b.tree.size < UInt32.size := Nat.lt_of_le_of_lt grown.size_le hk
    exact heard.push grown hk rfl hsize rfl rfl rfl rfl htree hopened hawaiting
  | endTag name =>
    obtain ⟨range, n, -, htree, hopened, hawaiting⟩ := endTag_eq_ok h
    refine heard.unchanged grown hk rfl nofun ?_ ?_ ?_ hawaiting
    · exact htree ▸ Tree.Keeps.stopAt _ _ _
    · exact htree ▸ Tree.SameTexts.stopAt _ _ _
    · intro e he
      rw [hopened] at he
      exact List.mem_of_mem_drop he
  | text content =>
    obtain ⟨hopened, hawaiting, ⟨hnone, htree⟩ | ⟨id, range, hid, hrange, htree⟩⟩ := text_eq_ok h
    · refine heard.unchanged grown hk rfl (fun _ => hnone) ?_ ?_ ?_ hawaiting
      · exact htree ▸ Tree.Keeps.refl _
      · exact htree ▸ Tree.SameTexts.refl _
      · exact fun e he => hopened ▸ he
    · exact heard.filled grown hk rfl hid hrange htree hopened hawaiting
  | comment =>
    cases h
    exact heard.unchanged grown hk rfl nofun (Tree.Keeps.refl _) (Tree.SameTexts.refl _)
      (fun _ he => he) rfl
  | declaration =>
    cases h
    exact heard.unchanged grown hk rfl nofun (Tree.Keeps.refl _) (Tree.SameTexts.refl _)
      (fun _ he => he) rfl

/-- A builder that has taken in no token has heard nothing. -/
theorem start (locator : Locator) (warnings : Array Warning) :
    Heard locator [] ⟨Tree.empty, [], none, warnings⟩ := by
  refine ⟨nofun, ?_, nofun⟩
  intro i
  constructor
  · exact nofun
  · rintro ⟨n, hn, -⟩
    cases hn

theorem foldlM (short : Text.byteLength locator.file.content.toList < UInt32.size)
    {more : List Token} (covers : ∀ t ∈ more, t.Covers locator.file.content.toList)
    {start stop : Nat} (tiles : Tiles start more stop) (heard : b.Heard locator tokens)
    (grown : Grown locator b.tree b.opened start (startTags tokens))
    (h : more.foldlM (Builder.token · locator) b = .ok b') :
    b'.Heard locator (tokens ++ more) := by
  -- the tree grows along, as what a builder hears is told by the elements it has
  induction more generalizing b start tokens with
  | nil =>
    cases h
    rw [List.append_nil]
    exact heard
  | cons t more ih =>
    obtain ⟨rfl, tiles⟩ := tiles
    obtain ⟨hcovers, covers⟩ := List.forall_mem_cons.mp covers
    rw [List.foldlM_cons] at h
    obtain ⟨next, hnext, h⟩ := bind_eq_ok_iff.mp h
    have hgrown := grown.token short hcovers hnext
    have happend : startTags (tokens ++ [t]) = startTags tokens ++ startTags [t] :=
      List.filter_append tokens [t]
    rw [← happend] at hgrown
    have hnext := ih covers tiles (heard.token short hcovers grown hnext) hgrown h
    rwa [List.append_assoc] at hnext

end Builder.Heard

/-- Every element of parsed markup has the last of the texts that it is given. -/
theorem hasLast_parse {url : Path} {source : String} {offset : Option Offset} {parsed : Parsed}
    (short : Text.byteLength source.toList < UInt32.size)
    (h : parse url source offset = .ok parsed) {i : NodeId} {node : Node}
    (hnode : parsed.tree.get? i = some node) :
    node.HasLast ⟨SourceFile.ofContent url source, offset⟩
      (parsed.tree.Given (lex source).tokens i) := by
  obtain ⟨warnings, b, stop, hb, grown, -, htree⟩ := exists_builder_of_parse short h
  have heard := (Builder.Heard.start _ warnings).foldlM short (covers_lex source)
    (tiles_lex source) (Grown.empty _) hb
  rw [htree] at hnode ⊢
  obtain ⟨old, hold, htext, htextRange⟩ := Tree.SameTexts.stopAt _ _ _ hnode
  apply (heard.last hold).congr htext htextRange
  intro n content span
  exact grown.given_iff short (Tree.Keeps.stopAt _ _ _).retains

end PageLint.Markup
