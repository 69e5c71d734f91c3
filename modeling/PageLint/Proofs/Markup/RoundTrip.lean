import PageLint.Proofs.Arena
import PageLint.Proofs.Markup.PrintedTags

/-!
# Parsing undoes printing

The tree of printed markup has the elements of the forest that was printed, and
nothing is said about it. The builder is followed through the print: `leads_print`
says what it holds after a forest, whatever comes next.
-/

namespace PageLint.Markup

open Text (byteLength)

variable {file : SourceFile}

/-! ## Following the builder -/

/-- From a cursor on, a builder ends up with the same as another one from another
cursor on, and the same problems are found. -/
def Leads (file : SourceFile) (c : Cursor) (b : Builder) (c' : Cursor) (b' : Builder) : Prop :=
  (lexed c).problems = (lexed c').problems ∧
    (lexed c).tokens.foldl (Builder.taking file) b =
      (lexed c').tokens.foldl (Builder.taking file) b'

namespace Leads

variable {c c' c'' : Cursor} {b b' b'' : Builder}

theorem refl (c : Cursor) (b : Builder) : Leads file c b c b := ⟨rfl, rfl⟩

theorem symm (h : Leads file c b c' b') : Leads file c' b' c b := ⟨h.1.symm, h.2.symm⟩

theorem trans (h : Leads file c b c' b') (h' : Leads file c' b' c'' b'') :
    Leads file c b c'' b'' :=
  ⟨h.1.trans h'.1, h.2.trans h'.2⟩

theorem of_step {tokens : List Token} (h : step c = ⟨tokens, [], c'⟩) (hne : c.rest ≠ [])
    (b : Builder) : Leads file c b c' (tokens.foldl (Builder.taking file) b) := by
  rw [Leads, lexed_of_rest_ne_nil hne, h]
  exact ⟨List.nil_append _, List.foldl_append⟩

theorem of_token {token : Token} (h : step c = ⟨[token], [], c'⟩) (hne : c.rest ≠ [])
    (htaking : b.taking file token = b') : Leads file c b c' b' := by
  subst htaking
  exact of_step h hne b

end Leads

/-! ## Text -/

theorem opening_of_ne {x : Char} (h : x ≠ '<') (rest : List Char) :
    Opening.of (x :: rest) = .text := by
  unfold Opening.of
  split
  all_goals first
    | exact absurd (List.cons.inj ‹_›).1 h
    | rfl

theorem filling_of_awaiting {b : Builder} (hb : b.awaiting = none) (content : String)
    (span : Span) : b.filling file content span = b := by
  rw [Builder.filling, hb]

/-- Text outside of raw text elements leaves nothing. -/
theorem leads_skipWhile {b : Builder} (hb : b.awaiting = none) (c : Cursor) :
    Leads file c b (c.skipWhile (· ≠ '<')) b := by
  obtain ⟨o, cs⟩ := c
  cases cs with
  | nil => exact Leads.refl _ _
  | cons x xs =>
    by_cases hx : x = '<'
    · subst hx
      rw [Cursor.skipWhile_of_head (Cursor.stops_cons (by decide) xs)]
      exact Leads.refl _ _
    · have hstep : step ⟨o, x :: xs⟩ =
          ⟨(text ⟨o, x :: xs⟩).tokens, [], (text ⟨o, x :: xs⟩).next⟩ := by
        rw [step, opening_of_ne hx]
        rfl
      have hleads : Leads file _ b _ _ := Leads.of_step hstep (List.cons_ne_nil x xs) b
      rw [Cursor.skipWhile_cons (decide_eq_true hx)]
      change Leads file _ _ _ (b.filling file _ _) at hleads
      rw [filling_of_awaiting hb] at hleads
      exact hleads

theorem leads_text {b : Builder} (hb : b.awaiting = none) {content : List Char}
    (h : '<' ∉ content) (rest : List Char) (o : Nat) :
    Leads file ⟨o, content ++ rest⟩ b ⟨o + byteLength content, rest⟩ b := by
  have hall := Text.all_ne_of_not_mem h
  have hskip : (⟨o, content ++ rest⟩ : Cursor).skipWhile (· ≠ '<') =
      (⟨o + byteLength content, rest⟩ : Cursor).skipWhile (· ≠ '<') := by
    rw [Cursor.skipWhile, Cursor.skipWhile, List.takeWhile_append_of_pos hall,
      List.dropWhile_append_of_pos hall, Text.byteLength_append, Nat.add_assoc]
  have hleads : Leads file _ b _ b := leads_skipWhile hb ⟨o, content ++ rest⟩
  rw [hskip] at hleads
  exact hleads.trans (leads_skipWhile hb _).symm

/-! ## Tags -/

/-- The tree of some elements. -/
def Tree.ofNodes (nodes : List Node) : Tree := ⟨⟨nodes.toArray⟩⟩

/-- A builder that has some elements, some of them open, and waits for no text. -/
def Builder.holding (nodes : List Node) (opened : List (NodeId × String))
    (warnings : Array Warning) : Builder :=
  ⟨Tree.ofNodes nodes, opened, none, warnings⟩

theorem push_ofNodes (nodes : List Node) (node : Node) :
    (Tree.ofNodes nodes).push node =
      (Tree.ofNodes (nodes ++ [node]), Arena.idOf nodes.length) := by
  simp [Tree.ofNodes, Tree.push, Arena.alloc, Arena.size]

theorem modify_ofNodes {before : List Node} (fits : before.length < UInt32.size) (node : Node)
    (after : List Node) (f : Node → Node) :
    (Tree.ofNodes (before ++ node :: after)).modify (Arena.idOf before.length) f =
      Tree.ofNodes (before ++ f node :: after) := by
  have hindex : (StoreId.index (Arena.idOf before.length : NodeId)).toNat = before.length :=
    Arena.index_idOf fits
  rw [Tree.modify, Arena.modify, hindex, Tree.ofNodes, Tree.ofNodes, List.modify_toArray,
    List.modify_eq_take_cons_drop (by simp)]
  simp

variable {nodes : List Node} {opened : List (NodeId × String)} {warnings : Array Warning}

theorem taking_void {tag : Tag} (hvoid : tag.name ∈ voidElements)
    (hopened : innermostRawText opened = none) (o : Nat) :
    (Builder.holding nodes opened warnings).taking file (tag.openingToken o) =
      Builder.holding
        (nodes ++ [tag.node file o (o + byteLength tag.opening) (opened.head?.map (·.1))])
        opened warnings := by
  change Builder.opening file _ _ _ _ _ = _
  rw [Builder.opening, Builder.holding]
  simp only
  rw [push_ofNodes, List.contains_iff_mem.mpr hvoid]
  change (⟨_, _, innermostRawText opened, _⟩ : Builder) = _
  rw [hopened]
  rfl

theorem taking_opening {tag : Tag} (hvoid : tag.name ∉ voidElements) (o : Nat) :
    (Builder.holding nodes opened warnings).taking file (tag.openingToken o) =
      ⟨Tree.ofNodes (nodes ++
          [tag.node file o (o + byteLength tag.opening) (opened.head?.map (·.1))]),
        (Arena.idOf nodes.length, tag.name) :: opened,
        if isRawTextElement tag.name then some (Arena.idOf nodes.length) else none, warnings⟩ := by
  have hcontains : voidElements.contains tag.name = false := by
    rw [← Bool.not_eq_true, List.contains_iff_mem]
    exact hvoid
  change Builder.opening file _ _ _ _ _ = _
  rw [Builder.opening, Builder.holding]
  simp only
  rw [push_ofNodes, hcontains]
  rfl

/-- The end tag of the innermost element ends it. -/
theorem taking_closing {before after : List Node} (fits : before.length < UInt32.size)
    (node : Node) (name : String) (span : Span) :
    (Builder.holding (before ++ node :: after) ((Arena.idOf before.length, name) :: opened)
        warnings).taking file ⟨.endTag name, span⟩ =
      Builder.holding
        (before ++ { node with range := { node.range with stop := file.positionAt span.stop } } ::
          after) opened warnings := by
  have hfind : ((Arena.idOf before.length, name) :: opened : List (NodeId × String)).findIdx?
      (·.2 = name) = some 0 := by
    rw [List.findIdx?_cons, if_pos (decide_eq_true rfl)]
  change Builder.closing file _ _ _ = _
  rw [Builder.closing, Builder.holding]
  simp only
  rw [hfind]
  simp only [Nat.zero_add, List.take_succ_cons, List.take_zero, List.drop_succ_cons, List.drop_zero,
    stopAt, List.foldl_cons, List.foldl_nil]
  rw [modify_ofNodes fits]
  rfl

/-- The text of a raw text element goes to the element that was opened last. -/
theorem taking_body (fits : nodes.length < UInt32.size) (node : Node) (body : String)
    (span : Span) :
    (⟨Tree.ofNodes (nodes ++ [node]), opened, some (Arena.idOf nodes.length), warnings⟩ :
        Builder).taking file ⟨.text body, span⟩ =
      Builder.holding
        (nodes ++ [{ node with textRange := some (file.rangeOf span), text := some body }])
        opened warnings := by
  rw [Builder.taking]
  simp only
  rw [Builder.filling]
  simp only
  rw [modify_ofNodes fits]
  rfl

theorem not_mem_voidElements {name : String} (h : isRawTextElement name) :
    name ∉ voidElements := by
  rcases isRawTextElement_iff.mp h with rfl | rfl
  · decide
  · decide

section Tags

variable {tag : Tag} (htag : tag.WellFormed) (more : List Char) (o : Nat)

include htag

theorem step_opening_of_not_raw (hraw : ¬ isRawTextElement tag.name) :
    step ⟨o, tag.opening ++ more⟩ =
      ⟨[tag.openingToken o], [], ⟨o + byteLength tag.opening, more⟩⟩ :=
  (step_opening htag more o).trans (if_neg hraw)

theorem leads_void (hvoid : tag.name ∈ voidElements) (hopened : innermostRawText opened = none) :
    Leads file ⟨o, tag.opening ++ more⟩ (Builder.holding nodes opened warnings)
      ⟨o + byteLength tag.opening, more⟩
      (Builder.holding
        (nodes ++ [tag.node file o (o + byteLength tag.opening) (opened.head?.map (·.1))])
        opened warnings) := by
  have hstep := step_opening_of_not_raw htag more o fun hraw => not_mem_voidElements hraw hvoid
  exact Leads.of_token hstep (List.cons_ne_nil _ _) (taking_void hvoid hopened o)

theorem leads_opening (hvoid : tag.name ∉ voidElements) (hraw : ¬ isRawTextElement tag.name) :
    Leads file ⟨o, tag.opening ++ more⟩ (Builder.holding nodes opened warnings)
      ⟨o + byteLength tag.opening, more⟩
      (Builder.holding
        (nodes ++ [tag.node file o (o + byteLength tag.opening) (opened.head?.map (·.1))])
        ((Arena.idOf nodes.length, tag.name) :: opened) warnings) := by
  have hstep := step_opening_of_not_raw htag more o hraw
  apply Leads.of_token hstep (List.cons_ne_nil _ _)
  rw [taking_opening hvoid, if_neg hraw]
  rfl

theorem leads_closing {before after : List Node} (fits : before.length < UInt32.size)
    (node : Node) :
    let stop := o + byteLength tag.closing
    Leads file ⟨o, tag.closing ++ more⟩
      (Builder.holding (before ++ node :: after) ((Arena.idOf before.length, tag.name) :: opened)
        warnings)
      ⟨stop, more⟩
      (Builder.holding
        (before ++ { node with range := { node.range with stop := file.positionAt stop } } :: after)
        opened warnings) := by
  have hstep := step_closing htag more o
  exact Leads.of_token hstep (List.cons_ne_nil _ _) (taking_closing fits node tag.name _)

theorem leads_raw (hraw : isRawTextElement tag.name) {body : String}
    (hbody : ¬ '<' :: '/' :: tag.name.toList <:+: body.toList.map Char.toLower)
    (fits : nodes.length < UInt32.size) :
    Leads file ⟨o, tag.opening ++ (body.toList ++ (tag.closing ++ more))⟩
      (Builder.holding nodes opened warnings)
      ⟨o + byteLength tag.opening + byteLength body.toList + byteLength tag.closing, more⟩
      (Builder.holding (nodes ++ [tag.rawNode file o body (opened.head?.map (·.1))]) opened
        warnings) := by
  have hstep := (step_opening htag (body.toList ++ (tag.closing ++ more)) o).trans (if_pos hraw)
  rw [rawText_print htag hraw hbody] at hstep
  have hleads : Leads file _ (Builder.holding nodes opened warnings) _ _ :=
    Leads.of_step hstep (List.cons_ne_nil _ _) _
  rw [List.foldl_cons, List.foldl_cons, List.foldl_nil,
    taking_opening (not_mem_voidElements hraw), if_pos hraw, taking_body fits] at hleads
  exact hleads.trans (leads_closing htag more _ fits _)

/-- Around some content that adds `children`, the tags of an element add the element. -/
theorem leads_element (hvoid : tag.name ∉ voidElements) (hraw : ¬ isRawTextElement tag.name)
    (fits : nodes.length < UInt32.size) {content : List Char} {children : List Node}
    (hcontent : Leads file ⟨o + byteLength tag.opening, content ++ (tag.closing ++ more)⟩
      (Builder.holding
        (nodes ++ [tag.node file o (o + byteLength tag.opening) (opened.head?.map (·.1))])
        ((Arena.idOf nodes.length, tag.name) :: opened) warnings)
      ⟨o + byteLength tag.opening + byteLength content, tag.closing ++ more⟩
      (Builder.holding
        (nodes ++ [tag.node file o (o + byteLength tag.opening) (opened.head?.map (·.1))] ++
          children)
        ((Arena.idOf nodes.length, tag.name) :: opened) warnings)) :
    let stop := o + byteLength tag.opening + byteLength content + byteLength tag.closing
    Leads file ⟨o, tag.opening ++ (content ++ (tag.closing ++ more))⟩
      (Builder.holding nodes opened warnings) ⟨stop, more⟩
      (Builder.holding (nodes ++ tag.node file o stop (opened.head?.map (·.1)) :: children) opened
        warnings) := by
  rw [List.append_assoc] at hcontent
  exact ((leads_opening htag _ o hvoid hraw).trans hcontent).trans
    (leads_closing htag more _ fits _)

end Tags

/-! ## Forests -/

theorem innermostRawText_cons {name : String} (h : ¬ isRawTextElement name) (id : NodeId)
    (opened : List (NodeId × String)) : innermostRawText ((id, name) :: opened) = none :=
  if_neg h

/-- After the print of a forest the builder holds the elements of the forest, whatever
comes next. -/
theorem leads_print {f : Forest} (h : f.WellFormed) (hopened : innermostRawText opened = none)
    (fits : nodes.length + f.size ≤ UInt32.size) (more : List Char) (o : Nat) :
    Leads file ⟨o, f.print ++ more⟩ (Builder.holding nodes opened warnings)
      ⟨o + byteLength f.print, more⟩
      (Builder.holding (nodes ++ f.nodes file o nodes.length (opened.head?.map (·.1))) opened
        warnings) := by
  induction f generalizing nodes opened more o with
  | nil =>
    rw [Forest.nodes, List.append_nil]
    exact Leads.refl _ _
  | text content rest ih =>
    obtain ⟨hcontent, hrest⟩ := h
    rw [Forest.print, List.append_assoc, Text.byteLength_append, ← Nat.add_assoc]
    exact (leads_text rfl hcontent _ o).trans (ih hrest hopened fits more _)
  | void tag rest ih =>
    obtain ⟨htag, hvoid, hrest⟩ := h
    have hfits : (nodes ++ [tag.node file o (o + byteLength tag.opening)
        (opened.head?.map (·.1))]).length + rest.size ≤ UInt32.size := by
      rw [Forest.size] at fits
      rw [List.length_append, List.length_singleton]
      omega
    have hfollow := ih hrest hopened hfits more (o + byteLength tag.opening)
    rw [List.length_append, List.append_assoc] at hfollow
    rw [Forest.print, List.append_assoc, Text.byteLength_append, ← Nat.add_assoc]
    exact (leads_void htag _ o hvoid hopened).trans hfollow
  | raw tag body rest ih =>
    obtain ⟨htag, hraw, hbody, hrest⟩ := h
    rw [Forest.size] at fits
    have hfits : (nodes ++ [tag.rawNode file o body (opened.head?.map (·.1))]).length +
        rest.size ≤ UInt32.size := by
      rw [List.length_append, List.length_singleton]
      omega
    have hfollow := ih hrest hopened hfits more
      (o + byteLength tag.opening + byteLength body.toList + byteLength tag.closing)
    rw [List.length_append, List.append_assoc] at hfollow
    simp only [Forest.print, List.append_assoc, Text.byteLength_append, ← Nat.add_assoc]
    exact (leads_raw htag _ o hraw hbody (by omega)).trans hfollow
  | element tag content rest ihcontent ihrest =>
    obtain ⟨htag, hvoid, hraw, hcontent, hrest⟩ := h
    rw [Forest.size] at fits
    let inner := o + byteLength tag.opening
    let stop := inner + byteLength content.print + byteLength tag.closing
    let parent := opened.head?.map (·.1)
    let id : NodeId := Arena.idOf nodes.length
    let children := content.nodes file inner (nodes.length + 1) (some id)
    have hcontentFits : (nodes ++ [tag.node file o inner parent]).length + content.size ≤
        UInt32.size := by
      rw [List.length_append, List.length_singleton]
      omega
    have hinner := ihcontent hcontent (innermostRawText_cons hraw id opened) hcontentFits
      (tag.closing ++ (rest.print ++ more)) inner
    have hlength : (nodes ++ tag.node file o stop parent :: children).length =
        nodes.length + 1 + content.size := by
      rw [List.length_append, List.length_cons, Forest.length_nodes]
      omega
    have hrestFits : (nodes ++ tag.node file o stop parent :: children).length + rest.size ≤
        UInt32.size := by
      rw [hlength]
      omega
    have hfollow := ihrest hrest hopened hrestFits more stop
    rw [hlength, List.append_assoc] at hfollow
    rw [List.length_append, List.length_singleton] at hinner
    simp only [Forest.print, List.append_assoc, Text.byteLength_append, ← Nat.add_assoc]
    exact (leads_element htag _ o hvoid hraw (by omega) hinner).trans hfollow

/-! ## The whole markup -/

/-- The tree of printed markup has one element for each element of the forest, in the
order of the start tags, and nothing is wrong with it. -/
theorem parse_print (url : Path) {f : Forest} (h : f.WellFormed)
    (short : byteLength f.print < UInt32.size) :
    let file := SourceFile.ofContent url (String.ofList f.print)
    parse url (String.ofList f.print) none =
      .ok ⟨Tree.ofNodes (f.nodes file 0 0 none), []⟩ := by
  intro file
  have fits : ([] : List Node).length + f.size ≤ UInt32.size := by
    have := f.size_le_byteLength_print
    rw [List.length_nil]
    omega
  have hleads : Leads file _ (Builder.holding [] [] #[]) _ _ := leads_print h rfl fits [] 0
  rw [List.append_nil] at hleads
  have hlex : lex (String.ofList f.print) = lexed ⟨0, f.print⟩ := by
    rw [lex_eq_lexed, Cursor.start, String.toList_ofList]
  obtain ⟨hproblems, htokens⟩ := hleads
  have hend : lexed ⟨0 + byteLength f.print, []⟩ = ⟨[], []⟩ := lexed_of_rest_nil rfl
  rw [hend] at hproblems htokens
  have hbuilt : built url (String.ofList f.print) =
      Builder.holding (f.nodes file 0 0 none) [] #[] := by
    rw [built, hlex, hproblems]
    exact htokens
  rw [parse_page, hbuilt]
  rfl

/-- A page with every kind of element, of attribute and of text. -/
def samplePage : Forest :=
  .element ⟨"main", [("hidden", none), ("title", some "1 < 2 >\n'")]⟩
    (.void ⟨"br", []⟩ (.text "é" (.raw ⟨"script", [("async", none)]⟩ "a </b> </SCRIP" .nil)))
    (.text "\n" .nil)

theorem parse_print_samplePage :
    samplePage.WellFormed ∧ byteLength samplePage.print < UInt32.size ∧
      parse ⟨"a.html"⟩ (String.ofList samplePage.print) none =
        .ok ⟨Tree.ofNodes (samplePage.nodes
          (SourceFile.ofContent ⟨"a.html"⟩ (String.ofList samplePage.print)) 0 0 none), []⟩ := by
  have h : samplePage.WellFormed := by decide +kernel
  have short : byteLength samplePage.print < UInt32.size := by decide +kernel
  exact ⟨h, short, parse_print _ h short⟩

end PageLint.Markup
