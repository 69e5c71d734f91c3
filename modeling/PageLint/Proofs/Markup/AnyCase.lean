import Mathlib.Data.List.Forall2
import PageLint.Proofs.Markup.Laminar
import PageLint.Proofs.Markup.Lowering

/-!
# Markup in any case

Pages that are equal up to the case of letters have the same tree and the same warnings, but for
the case of values and of raw texts. Both trees are compared with the tree of the page in lower
case, which is built from the same tokens at the same places.
-/

namespace PageLint

/-! ## Positions in lower case -/

namespace Line

/-- The line with its characters in lower case. -/
def lowered (line : Line) : Line := ofChars line.start (line.chars.map Char.toLower)

theorem charEnds_map_toLower (start : Nat) (cs : List Char) :
    charEnds start (cs.map Char.toLower) = charEnds start cs := by
  induction cs generalizing start with
  | nil => rfl
  | cons c cs ih => rw [List.map_cons, charEnds, charEnds, Text.utf8Size_toLower, ih]

theorem columnAt_lowered (line : Line) (n : Nat) : line.lowered.columnAt n = line.columnAt n := by
  rw [columnAt, columnAt, line.ends_eq, line.lowered.ends_eq]
  exact congrArg (fun ends => border (· ≤ n) ends.toArray) (charEnds_map_toLower 0 line.chars)

theorem place_map_toLower (start : Nat) (pieces : List (List Char)) :
    place start (pieces.map (·.map Char.toLower)) = (place start pieces).map lowered := by
  induction pieces generalizing start with
  | nil => rfl
  | cons piece pieces ih =>
    rw [List.map_cons, place, place, List.map_cons, Text.byteLength_map_toLower, ih]
    rfl

theorem index_lower (content : String) :
    index (Text.lower content) = (index content).map lowered := by
  rw [index, index, Text.toList_lower, Text.splitOn_map_toLower, place_map_toLower,
    List.map_toArray]

end Line

namespace SourceFile

theorem positionAt_lower (path : Path) (content : String) (n : Nat) :
    (ofContent path (Text.lower content)).positionAt n = (ofContent path content).positionAt n := by
  have hlines : (ofContent path (Text.lower content)).lines =
      (ofContent path content).lines.map Line.lowered := Line.index_lower content
  have hborder : border (·.start ≤ n) (ofContent path (Text.lower content)).lines =
      border (·.start ≤ n) (ofContent path content).lines := by
    rw [border_lines, border_lines, hlines, Array.toList_map, List.countP_map]
    rfl
  have hget (k : Nat) : (ofContent path (Text.lower content)).lines[k]? =
      (ofContent path content).lines[k]?.map Line.lowered := by
    rw [hlines, Array.getElem?_map]
  simp only [positionAt, hborder, hget]
  generalize border (·.start ≤ n) (ofContent path content).lines - 1 = k
  cases (ofContent path content).lines[k]? with
  | none => rfl
  | some line =>
    change Position.mk _ (UInt32.ofNat (line.lowered.columnAt (n - line.start))) = _
    rw [line.columnAt_lowered]

end SourceFile

namespace Markup

/-! ## Trees in lower case -/

def Attribute.lowered (a : Attribute) : Attribute := { a with value := a.value.map Text.lower }

/-- The element with the values of its attributes and its raw text in lower case. -/
def Node.lowered (node : Node) : Node :=
  { node with attributes := node.attributes.map (·.lowered), text := node.text.map Text.lower }

def Tree.lowered (tree : Tree) : Tree := ⟨tree.nodes.mapEntries fun _ => Node.lowered⟩

def Builder.lowered (b : Builder) : Builder := { b with tree := b.tree.lowered }

def Parsed.lowered (parsed : Parsed) : Parsed := { parsed with tree := parsed.tree.lowered }

namespace Tree

variable (tree : Tree)

theorem lowered_push (node : Node) :
    tree.lowered.push node.lowered = ((tree.push node).1.lowered, (tree.push node).2) := by
  rw [push, lowered, Arena.alloc_mapEntries]
  rfl

theorem lowered_modify (id : NodeId) {f g : Node → Node}
    (h : ∀ node, g node.lowered = (f node).lowered) :
    tree.lowered.modify id g = (tree.modify id f).lowered :=
  congrArg Tree.mk (tree.nodes.modify_mapEntries id h)

theorem lowered_stopAt (stop : Position) (ids : List (NodeId × String)) :
    stopAt tree.lowered stop ids = (stopAt tree stop ids).lowered := by
  induction ids generalizing tree with
  | nil => rfl
  | cons id ids ih =>
    rw [stopAt, List.foldl_cons, tree.lowered_modify id.1
      (f := fun node => { node with range := { node.range with stop } }) fun _ => rfl]
    exact ih _

end Tree

/-! ## Building the tree -/

section

variable {l l' : Locator} (hrange : ∀ span, l'.range span = l.range span)

include hrange

theorem attribute_lowered (raw : RawAttribute) :
    l'.attribute raw.lowered = (l.attribute raw).map Attribute.lowered := by
  obtain ⟨name, nameSpan, value⟩ := raw
  cases value with
  | none =>
    change (l'.range nameSpan >>= _) = Except.map _ (l.range nameSpan >>= _)
    rw [hrange]
    cases l.range nameSpan with
    | error fault => rfl
    | ok range => rfl
  | some value =>
    change (l'.range value.span >>= _) = Except.map _ (l.range value.span >>= _)
    rw [hrange]
    cases l.range value.span with
    | error fault => rfl
    | ok range => rfl

variable (b : Builder)

theorem startTag_builder_lowered (name : String) (attributes : List RawAttribute)
    (selfClosing : Bool) (span : Span) :
    b.lowered.startTag l' name (attributes.map (·.lowered)) selfClosing span =
      (b.startTag l name attributes selfClosing span).map Builder.lowered := by
  rw [Builder.startTag, Builder.startTag, mapM_map_eq (attribute_lowered hrange), hrange]
  cases attributes.mapM l.attribute with
  | error fault => rfl
  | ok attributes =>
    cases l.range span with
    | error fault => rfl
    | ok range =>
      let node : Node := ⟨name, range, attributes, none, none, b.opened.head?.map (·.1)⟩
      change Except.ok (
        let pushed := b.tree.lowered.push node.lowered
        let opened := if selfClosing || voidElements.contains name then b.opened
          else (pushed.2, name) :: b.opened
        Builder.mk pushed.1 opened (if selfClosing then none else innermostRawText opened) _) = _
      rw [b.tree.lowered_push node]
      rfl

theorem endTag_builder_lowered (name : String) (span : Span) :
    b.lowered.endTag l' name span = (b.endTag l name span).map Builder.lowered := by
  obtain ⟨tree, opened, awaiting, warnings⟩ := b
  rw [Builder.endTag, Builder.endTag, hrange]
  cases l.range span with
  | error fault => rfl
  | ok range =>
    simp only [Builder.lowered]
    cases opened.findIdx? (·.2 = name) with
    | none => rfl
    | some k =>
      change Except.ok (Builder.mk (stopAt _ _ _) _ _ _) = Except.ok _
      rw [tree.lowered_stopAt]
      rfl

theorem text_builder_lowered (content : String) (span : Span) :
    b.lowered.text l' (Text.lower content) span = (b.text l content span).map Builder.lowered := by
  obtain ⟨tree, opened, awaiting, warnings⟩ := b
  cases awaiting with
  | none => rfl
  | some id =>
    change (l'.range span >>= _) = Except.map _ (l.range span >>= _)
    rw [hrange]
    cases l.range span with
    | error fault => rfl
    | ok range =>
      change Except.ok (Builder.mk (Tree.modify _ _ _) _ _ _) = Except.ok _
      rw [tree.lowered_modify id
        (f := fun node => { node with textRange := some range, text := some content }) fun _ => rfl]
      rfl

theorem token_builder_lowered (t : Token) :
    b.lowered.token l' t.lowered = (b.token l t).map Builder.lowered := by
  obtain ⟨kind, span⟩ := t
  cases kind with
  | startTag name attributes selfClosing =>
    exact startTag_builder_lowered hrange b name attributes selfClosing span
  | endTag name => exact endTag_builder_lowered hrange b name span
  | text content => exact text_builder_lowered hrange b content span
  | comment => rfl
  | declaration => rfl

theorem foldlM_token_lowered (tokens : List Token) :
    (tokens.map (·.lowered)).foldlM (Builder.token · l') b.lowered =
      (tokens.foldlM (Builder.token · l) b).map Builder.lowered :=
  foldlM_map_eq (fun b t => token_builder_lowered hrange b t) tokens b

end

theorem position_lower (url : Path) (contents : String) (offset : Option Offset) (n : Nat) :
    (⟨SourceFile.ofContent url (Text.lower contents), offset⟩ : Locator).position n =
      (⟨SourceFile.ofContent url contents, offset⟩ : Locator).position n := by
  rw [Locator.position, SourceFile.positionAt_lower]
  rfl

/-- A page in lower case has the tree of the page, in lower case, and its warnings. -/
theorem parse_lower (url : Path) (contents : String) (offset : Option Offset) :
    parse url (Text.lower contents) offset =
      (parse url contents offset).map Parsed.lowered := by
  let l : Locator := ⟨SourceFile.ofContent url contents, offset⟩
  let l' : Locator := ⟨SourceFile.ofContent url (Text.lower contents), offset⟩
  have hposition : ∀ n, l'.position n = l.position n := position_lower url contents offset
  have hrange (span : Span) : l'.range span = l.range span := by
    rw [Locator.range, Locator.range, hposition, hposition]
    rfl
  have hwarning : l'.warning = l.warning := by
    funext problem
    rw [Locator.warning, Locator.warning, hrange]
  have htokens (warnings : List Warning) :
      (lex contents).lowered.tokens.foldlM (Builder.token · l')
          ⟨Tree.empty, [], none, warnings.toArray⟩ =
        ((lex contents).tokens.foldlM (Builder.token · l)
          ⟨Tree.empty, [], none, warnings.toArray⟩).map Builder.lowered :=
    foldlM_token_lowered hrange ⟨Tree.empty, [], none, warnings.toArray⟩ (lex contents).tokens
  have hlength :
      Text.byteLength (Text.lower contents).toList = Text.byteLength contents.toList := by
    rw [Text.toList_lower, Text.byteLength_map_toLower]
  unfold parse
  rw [lex_lower, hlength]
  change ((lex contents).problems.mapM l'.warning >>= _) =
    Except.map _ ((lex contents).problems.mapM l.warning >>= _)
  rw [hwarning]
  cases (lex contents).problems.mapM l.warning with
  | error fault => rfl
  | ok warnings =>
    change (List.foldlM (Builder.token · l') _ _ >>= _) =
      Except.map _ (List.foldlM (Builder.token · l) _ _ >>= _)
    rw [htokens]
    cases (lex contents).tokens.foldlM (Builder.token · l)
        ⟨Tree.empty, [], none, warnings.toArray⟩ with
    | error fault => rfl
    | ok b =>
      change (l'.position _ >>= _) = Except.map _ (l.position _ >>= _)
      rw [hposition]
      cases l.position (Text.byteLength contents.toList) with
      | error fault => rfl
      | ok stop =>
        change Except.ok (Parsed.mk (stopAt b.tree.lowered stop b.opened) _) = _
        rw [b.tree.lowered_stopAt]
        rfl

/-! ## Trees that are equal up to case -/

/-- Both are missing, or their texts are equal up to case. -/
def EqualText : Option String → Option String → Prop :=
  Option.Rel fun s t => Text.equalIgnoringCase s t = true

structure Attribute.EqualIgnoringCase (a a' : Attribute) : Prop where
  name : a.name = a'.name
  range : a.range = a'.range
  value : EqualText a.value a'.value

/-- The elements are equal but for the case of values and of the raw text. -/
structure Node.EqualIgnoringCase (node node' : Node) : Prop where
  kind : node.kind = node'.kind
  range : node.range = node'.range
  parent : node.parent = node'.parent
  attributes : List.Forall₂ Attribute.EqualIgnoringCase node.attributes node'.attributes
  textRange : node.textRange = node'.textRange
  text : EqualText node.text node'.text

/-- The trees have as many elements, one by one equal up to case, and the warnings are equal. -/
structure Parsed.EqualIgnoringCase (parsed parsed' : Parsed) : Prop where
  nodes : List.Forall₂ Node.EqualIgnoringCase parsed.tree.nodes.values parsed'.tree.nodes.values
  warnings : parsed.warnings = parsed'.warnings

theorem forall₂_of_map_eq {α β : Type} {f : α → β} {r : α → α → Prop}
    (hr : ∀ a a', f a = f a' → r a a') {as as' : List α} (h : as.map f = as'.map f) :
    List.Forall₂ r as as' := by
  have heq : List.Forall₂ (· = ·) (as.map f) (as'.map f) := by rw [List.forall₂_eq_eq_eq, h]
  rw [List.forall₂_map_left_iff, List.forall₂_map_right_iff] at heq
  exact heq.imp hr

theorem EqualText.of_map_eq {o o' : Option String} (h : o.map Text.lower = o'.map Text.lower) :
    EqualText o o' := by
  cases o with
  | none =>
    cases o' with
    | none => exact .none
    | some t => cases h
  | some s =>
    cases o' with
    | none => cases h
    | some t => exact .some (Text.equalIgnoringCase_iff.mpr (Option.some.inj h))

theorem Attribute.EqualIgnoringCase.of_lowered_eq (a a' : Attribute) (h : a.lowered = a'.lowered) :
    a.EqualIgnoringCase a' where
  name := congrArg (·.name) h
  range := congrArg (·.range) h
  value := .of_map_eq (congrArg (·.value) h)

theorem Node.EqualIgnoringCase.of_lowered_eq (node node' : Node)
    (h : node.lowered = node'.lowered) : node.EqualIgnoringCase node' where
  kind := congrArg (·.kind) h
  range := congrArg (·.range) h
  parent := congrArg (·.parent) h
  attributes := forall₂_of_map_eq Attribute.EqualIgnoringCase.of_lowered_eq
    (congrArg (·.attributes) h)
  textRange := congrArg (·.textRange) h
  text := .of_map_eq (congrArg (·.text) h)

theorem Parsed.EqualIgnoringCase.of_lowered_eq {parsed parsed' : Parsed}
    (h : parsed.lowered = parsed'.lowered) : parsed.EqualIgnoringCase parsed' where
  nodes := by
    apply forall₂_of_map_eq Node.EqualIgnoringCase.of_lowered_eq
    rw [← Arena.values_mapEntries, ← Arena.values_mapEntries]
    exact congrArg (·.tree.nodes.values) h
  warnings := congrArg (·.warnings) h

/-- Markup has the same tree and the same warnings in any case, at any place in any file. -/
theorem parse_equalIgnoringCase {s t : String} (h : Text.equalIgnoringCase s t = true) (url : Path)
    (offset : Option Offset) :
    let locator : Locator := ⟨SourceFile.ofContent url s, offset⟩
    (locator.Fits → ∃ parsed, parse url s offset = .ok parsed) ∧
      (∀ fault, parse url s offset = .error fault → parse url t offset = .error fault) ∧
      ∀ parsed, parse url s offset = .ok parsed →
        ∃ parsed', parse url t offset = .ok parsed' ∧ parsed.EqualIgnoringCase parsed' := by
  intro locator
  have hlower : (parse url s offset).map Parsed.lowered =
      (parse url t offset).map Parsed.lowered := by
    rw [← parse_lower, ← parse_lower, Text.equalIgnoringCase_iff.mp h]
  refine ⟨exists_parse, ?_, ?_⟩
  · intro fault hs
    rw [hs] at hlower
    cases ht : parse url t offset with
    | error fault' =>
      rw [ht] at hlower
      cases hlower
      rfl
    | ok parsed' =>
      rw [ht] at hlower
      cases hlower
  · intro parsed hs
    rw [hs] at hlower
    obtain ⟨parsed', ht, heq⟩ := map_eq_ok_iff.mp hlower.symm
    exact ⟨parsed', ht, .of_lowered_eq heq.symm⟩

/-- A page in mixed case, with a script, a void element and an end tag without a start tag. -/
def mixedCase : String := "<P Class=Ab é>\n<SCRIPT>Var</scrIPT><BR></p></Q>"

/-- The same page with the case of every letter turned. -/
def turnedCase : String := "<p cLASS=aB é>\n<script>vAR</SCRipt><br></P></q>"

theorem parse_equalIgnoringCase_mixedCase :
    Text.equalIgnoringCase mixedCase turnedCase = true ∧
      ∃ parsed parsed', parse ⟨"a.html"⟩ mixedCase (some ⟨2, 3⟩) = .ok parsed ∧
        parse ⟨"a.html"⟩ turnedCase (some ⟨2, 3⟩) = .ok parsed' ∧
        parsed.EqualIgnoringCase parsed' ∧
        (parsed.tree.nodes.values.map (·.text)) = [none, some "Var", none] := by
  have heq : Text.equalIgnoringCase mixedCase turnedCase = true := by decide +kernel
  have htexts : (parse ⟨"a.html"⟩ mixedCase (some ⟨2, 3⟩)).map
      (·.tree.nodes.values.map (·.text)) = .ok [none, some "Var", none] := by
    decide +kernel
  obtain ⟨-, -, hall⟩ := parse_equalIgnoringCase heq ⟨"a.html"⟩ (some ⟨2, 3⟩)
  obtain ⟨parsed, hparsed, htexts⟩ := map_eq_ok_iff.mp htexts
  obtain ⟨parsed', hparsed', hequal⟩ := hall parsed hparsed
  exact ⟨heq, parsed, parsed', hparsed, hparsed', hequal, htexts⟩

end Markup

end PageLint
