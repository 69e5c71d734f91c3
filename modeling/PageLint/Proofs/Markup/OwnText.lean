import PageLint.Proofs.Markup.Hearing
import PageLint.Proofs.Markup.RawBody

/-!
# Own text

The first text that a raw text element is given is its own body, the others stray into it from
behind void tags. So it has its own body as its text as long as none does.
-/

namespace PageLint.Markup

/-- The text behind the `n`-th token stands right behind the void tag of a child of the element. -/
def Tree.Strays (tree : Tree) (tokens : List Token) (i : NodeId) (n : Nat) (content : String)
    (span : Span) : Prop :=
  ∃ t, tokens[n]? = some t ∧ t.kind.isVoidTag = true ∧
    tree.parent? (elementAt tokens n) = some i ∧ tokens[n + 1]? = some ⟨.text content, span⟩

namespace Grown

variable {locator : Locator} {tree : Tree} {opened : List (NodeId × String)} {k : Nat}
  {tokens : List Token} (grown : Grown locator tree opened k (startTags tokens))
  (hk : k < UInt32.size) {n m : Nat} {t u : Token} (ht : tokens[n]? = some t)
  (hstart : startTags [t] = [t])

include grown hk ht hstart

theorem lt_of_strays {content : String} {span : Span}
    (h : tree.Strays tokens (elementAt tokens n) m content span) : n < m := by
  obtain ⟨u, hu, hvoid, hparent, -⟩ := h
  obtain ⟨hlt, -⟩ := grown.parent_lt hparent
  exact (grown.index_elementAt_lt_iff hk ht hstart hu (startTags_eq_self (Or.inr hvoid))).mp hlt

/-- The element of a tag that opens no raw text is given none. -/
theorem not_given (hopens : t.kind.opensRawText = false) (m : Nat) (content : String)
    (span : Span) : ¬ tree.Given tokens (elementAt tokens n) m content span := by
  rintro ⟨⟨u, hu, ⟨hopens', heq⟩ | ⟨-, hparent, node, hnode, hraw⟩⟩, -⟩
  · rw [grown.eq_of_elementAt_eq hk ht hstart hu (startTags_eq_self (Or.inl hopens')) heq,
      ht] at hu
    cases hu
    rw [hopens'] at hopens
    cases hopens
  · -- the tag closes itself, and then no element has it as a parent
    obtain ⟨hindex, node', hnode', attributes, selfClosing, hkind, -⟩ :=
      grown.exists_elementAt hk ht hstart
    cases hnode.symm.trans hnode'
    rw [hkind, TokenKind.opensRawText, hraw, Bool.and_true, Bool.not_eq_false'] at hopens
    refine grown.not_isLeaf ?_ (Or.inr ⟨_, hparent⟩) ⟨_, _, _, hkind, Or.inl hopens⟩
    rw [hindex]
    exact startTags_getElem? ht hstart

/-- A raw text element is given its own text and those that stray into it. -/
theorem given_iff_strays (hopens : t.kind.opensRawText = true) {content : String} {span : Span} :
    tree.Given tokens (elementAt tokens n) m content span ↔
      m = n ∧ tokens[n + 1]? = some ⟨.text content, span⟩ ∨
        tree.Strays tokens (elementAt tokens n) m content span := by
  constructor
  · rintro ⟨⟨u, hu, ⟨hopens', heq⟩ | ⟨hvoid, hparent, -⟩⟩, hnext⟩
    · cases grown.eq_of_elementAt_eq hk ht hstart hu (startTags_eq_self (Or.inl hopens')) heq
      exact Or.inl ⟨rfl, hnext⟩
    · exact Or.inr ⟨u, hu, hvoid, hparent, hnext⟩
  · rintro (⟨rfl, hnext⟩ | ⟨u, hu, hvoid, hparent, hnext⟩)
    · exact ⟨⟨t, ht, Or.inl ⟨hopens, rfl⟩⟩, hnext⟩
    · obtain ⟨-, node, hnode, attributes, selfClosing, hkind, -⟩ :=
        grown.exists_elementAt hk ht hstart
      rw [hkind] at hopens
      have hraw := (Bool.and_eq_true_iff.mp hopens).2
      exact ⟨⟨u, hu, Or.inr ⟨hvoid, hparent, node, hnode, hraw⟩⟩, hnext⟩

end Grown

theorem Node.HasText.start_eq {locator : Locator} {node : Node} {content content' : String}
    {span span' : Span} (short : Text.byteLength locator.file.content.toList < UInt32.size)
    (h : node.HasText locator content span) (h' : node.HasText locator content' span')
    (hin : Text.IsBoundary locator.file.content.toList span.start)
    (hin' : Text.IsBoundary locator.file.content.toList span'.start) :
    span.start = span'.start := by
  obtain ⟨-, range, hsome, hrange⟩ := h
  obtain ⟨-, range', hsome', hrange'⟩ := h'
  cases hsome.symm.trans hsome'
  have hplaces : locator.Places span.start range.start := ⟨hin, (Locator.range_eq_ok hrange).1⟩
  have hplaces' : locator.Places span'.start range.start := ⟨hin', (Locator.range_eq_ok hrange').1⟩
  exact Nat.le_antisymm ((hplaces.le_iff short hplaces').mp (Position.le_refl _))
    ((hplaces'.le_iff short hplaces).mp (Position.le_refl _))

section

variable {url : Path} {source : String} {offset : Option Offset} {parsed : Parsed}
  (short : Text.byteLength source.toList < UInt32.size)
  (h : parse url source offset = .ok parsed)

include short h

theorem start_lt_of_strays {n m : Nat} {t : Token} (ht : (lex source).tokens[n]? = some t)
    (hstart : startTags [t] = [t]) {content : String} {span : Span}
    (hstrays : parsed.tree.Strays (lex source).tokens (elementAt (lex source).tokens n) m
      content span) : t.span.stop < span.start := by
  have hlt := (grown_parse short h).lt_of_strays short ht hstart hstrays
  obtain ⟨u, hu, hvoid, -, hnext⟩ := hstrays
  have covers := covers_lex source
  have ordered := List.pairwise_iff_getElem.mp
    ((tiles_lex source).pairwise fun t ht => (covers t ht).le)
  obtain ⟨hn, rfl⟩ := List.getElem?_eq_some_iff.mp ht
  obtain ⟨hm, rfl⟩ := List.getElem?_eq_some_iff.mp hu
  obtain ⟨hm', hspan⟩ := List.getElem?_eq_some_iff.mp hnext
  have hbefore := ordered n m hn hm hlt
  have hbehind := ordered m (m + 1) hm hm' (Nat.lt_succ_self m)
  have htag : (lex source).tokens[m].span.start < (lex source).tokens[m].span.stop := by
    apply (covers _ (List.getElem_mem hm)).lt
    intro content hkind
    rw [hkind] at hvoid
    cases hvoid
  rw [hspan] at hbehind
  exact Nat.lt_of_le_of_lt hbefore (Nat.lt_of_lt_of_le htag hbehind)

/-- The element of a tag that opens raw text has its own text if nothing strays into it, and
otherwise the last of the texts that do. -/
theorem hasText_parse {n : Nat} {t : Token} (ht : (lex source).tokens[n]? = some t)
    (hopens : t.kind.opensRawText = true) {node : Node}
    (hnode : parsed.tree.get? (elementAt (lex source).tokens n) = some node) {own : String}
    {ownSpan : Span} (hown : (lex source).tokens[n + 1]? = some ⟨.text own, ownSpan⟩)
    (hstop : ownSpan.start = t.span.stop) :
    let locator : Locator := ⟨SourceFile.ofContent url source, offset⟩
    let Stray := parsed.tree.Strays (lex source).tokens (elementAt (lex source).tokens n)
    (node.HasText locator own ownSpan ↔ ∀ m content span, ¬ Stray m content span) ∧
      ∀ m content span, Stray m content span →
        (∀ m' content' span', Stray m' content' span' → m' ≤ m) →
        node.HasText locator content span := by
  intro locator Stray
  have hstart := startTags_eq_self (Or.inl hopens)
  have grown := grown_parse short h
  have given_iff : ∀ {m content span},
      parsed.tree.Given (lex source).tokens (elementAt (lex source).tokens n) m content span ↔
        m = n ∧ (lex source).tokens[n + 1]? = some ⟨.text content, span⟩ ∨ Stray m content span :=
    grown.given_iff_strays short ht hstart hopens
  have hgiven := given_iff.mpr (Or.inl ⟨rfl, hown⟩)
  rcases hasLast_parse short h hnode with ⟨hnone, -⟩ | ⟨m, content, span, hlast, htext, hmax⟩
  · exact absurd hgiven (hnone n own ownSpan)
  -- as the own text comes first, the last text is a stray one if there is any
  have stray_last : ∀ {m' content' span'}, Stray m' content' span' →
      m' ≤ m ∧ Stray m content span := by
    intro m' content' span' hstray
    have hle := hmax m' content' span' (given_iff.mpr (Or.inr hstray))
    rcases given_iff.mp hlast with ⟨rfl, -⟩ | hlast
    · have hlt := grown.lt_of_strays short ht hstart hstray
      omega
    · exact ⟨hle, hlast⟩
  refine ⟨⟨?_, ?_⟩, ?_⟩
  · intro hhas m' content' span' hstray
    obtain ⟨-, hstray⟩ := stray_last hstray
    have ⟨_, _, _, _, hnext⟩ := hstray
    have hlt := start_lt_of_strays short h ht hstart hstray
    have heq := hhas.start_eq short htext (covers_lex source _ (List.mem_of_getElem? hown)).start
      (covers_lex source _ (List.mem_of_getElem? hnext)).start
    omega
  · intro hnone
    rcases given_iff.mp hlast with ⟨-, hnext⟩ | hstray
    · cases hown.symm.trans hnext
      exact htext
    · exact absurd hstray (hnone m content span)
  · intro m' content' span' hstray hmax'
    obtain ⟨hle, hlast⟩ := stray_last hstray
    cases Nat.le_antisymm hle (hmax' m content span hlast)
    obtain ⟨-, -, -, -, hnext⟩ := hstray
    obtain ⟨-, -, -, -, hnext'⟩ := hlast
    cases hnext.symm.trans hnext'
    exact htext

end

/-- Parsed markup has an element for each start tag. One whose tag opens raw text has the body
behind its tag as its text, unless texts stray into it: those right behind void tags directly
inside it, of which it then has the last. No other element has a text. -/
theorem ownText_parse (url : Path) (source : String) (offset : Option Offset)
    (short : Text.byteLength source.toList < UInt32.size) :
    let locator : Locator := ⟨SourceFile.ofContent url source, offset⟩
    let tokens := (lex source).tokens
    (locator.Fits → ∃ parsed, parse url source offset = .ok parsed) ∧
      ∀ parsed, parse url source offset = .ok parsed →
        parsed.tree.size = (startTags tokens).length ∧
        ∀ n name attributes selfClosing span,
          tokens[n]? = some ⟨.startTag name attributes selfClosing, span⟩ →
          ∃ node, parsed.tree.get? (elementAt tokens n) = some node ∧
            node.MadeOf locator ⟨.startTag name attributes selfClosing, span⟩ ∧
            (selfClosing = true ∨ isRawTextElement name = false →
              node.text = none ∧ node.textRange = none) ∧
            (selfClosing = false → isRawTextElement name = true →
              let Stray := parsed.tree.Strays tokens (elementAt tokens n)
              ∃ body, IsRawBody source.toList name span.stop body ∧
                (node.HasText locator (String.ofList body)
                    ⟨span.stop, span.stop + Text.byteLength body⟩ ↔
                  ∀ m content span', ¬ Stray m content span') ∧
                ∀ m content span', Stray m content span' →
                  (∀ m' content' span'', Stray m' content' span'' → m' ≤ m) →
                  node.HasText locator content span') := by
  intro locator tokens
  refine ⟨exists_parse, ?_⟩
  intro parsed h
  have grown := grown_parse short h
  refine ⟨grown.size_eq, ?_⟩
  intro n name attributes selfClosing span ht
  obtain ⟨-, node, hnode, hmade⟩ := grown.exists_elementAt short ht rfl
  refine ⟨node, hnode, hmade, ?_, ?_⟩
  · intro hother
    have hopens : (TokenKind.startTag name attributes selfClosing).opensRawText = false := by
      rcases hother with rfl | hraw
      · rfl
      · rw [TokenKind.opensRawText, hraw, Bool.and_false]
    rcases hasLast_parse short h hnode with ⟨-, htext, htextRange⟩ | ⟨m, content, span', hgiven, -⟩
    · exact ⟨htext, htextRange⟩
    · exact absurd hgiven (grown.not_given short ht rfl hopens m content span')
  · rintro rfl hraw Stray
    obtain ⟨body, hbody, hown⟩ := isRawBody_lex source hraw ht
    exact ⟨body, hbody, hasText_parse short h ht hraw hnode hown rfl⟩

/-- A script that does not end where its text does, and a style element inside it. -/
def overrunPage : String := "<script>a</scriptx><br>b<style>c"

theorem tokens_overrunPage : (lex overrunPage).tokens =
    [⟨.startTag "script" [] false, ⟨0, 8⟩⟩, ⟨.text "a", ⟨8, 9⟩⟩, ⟨.endTag "scriptx", ⟨9, 19⟩⟩,
      ⟨.startTag "br" [] false, ⟨19, 23⟩⟩, ⟨.text "b", ⟨23, 24⟩⟩,
      ⟨.startTag "style" [] false, ⟨24, 31⟩⟩, ⟨.text "c", ⟨31, 32⟩⟩] := by
  decide +kernel

theorem ownText_parse_overrunPage :
    Text.byteLength overrunPage.toList < UInt32.size ∧
      ∃ parsed style, parse ⟨"a.html"⟩ overrunPage none = .ok parsed ∧
        parsed.tree.get? ⟨2⟩ = some style ∧ style.kind = "style" ∧
        ∃ body, IsRawBody overrunPage.toList "style" 31 body ∧
          style.text = some (String.ofList body) := by
  have short : Text.byteLength overrunPage.toList < UInt32.size := by decide +kernel
  have fits : Locator.Fits ⟨SourceFile.ofContent ⟨"a.html"⟩ overrunPage, none⟩ :=
    fun _ => ⟨_, rfl⟩
  have hparent : (parse ⟨"a.html"⟩ overrunPage none).map (·.tree.parent? ⟨1⟩) = .ok (some ⟨0⟩) := by
    decide +kernel
  obtain ⟨hexists, hall⟩ := ownText_parse ⟨"a.html"⟩ overrunPage none short
  obtain ⟨parsed, hparsed⟩ := hexists fits
  obtain ⟨-, htexts⟩ := hall parsed hparsed
  rw [tokens_overrunPage] at htexts
  obtain ⟨style, hstyle, ⟨_, _, hkind, -⟩, -, hraw⟩ := htexts 5 "style" [] false ⟨24, 31⟩ rfl
  obtain ⟨body, hbody, hown, -⟩ := hraw rfl (by decide)
  obtain ⟨hname, -, -⟩ := TokenKind.startTag.inj hkind
  refine ⟨short, parsed, style, hparsed, hstyle, hname.symm, body, hbody, (hown.mpr ?_).1⟩
  -- the only void tag is that of a child of the script
  rintro m content span ⟨t, ht, hvoid, hinside, -⟩
  have hbreak : ∀ e ∈ (lex overrunPage).tokens.zipIdx, e.1.kind.isVoidTag = true → e.2 = 3 := by
    decide +kernel
  rw [tokens_overrunPage] at hbreak
  cases hbreak (t, m) (List.mem_zipIdx_iff_getElem?.mpr ht) hvoid
  obtain ⟨parsed', hparsed', hscript⟩ := map_eq_ok_iff.mp hparent
  cases hparsed.symm.trans hparsed'
  exact absurd (hscript.symm.trans hinside) (by decide)

/-- What the markup holds behind a start tag that opens raw text is not always the text of the
element. -/
theorem text_overrunPage :
    (lex overrunPage).tokens.head? = some ⟨.startTag "script" [] false, ⟨0, 8⟩⟩ ∧
      IsRawBody overrunPage.toList "script" 8 ['a'] ∧
      ∃ parsed script, parse ⟨"a.html"⟩ overrunPage none = .ok parsed ∧
        parsed.tree.get? ⟨0⟩ = some script ∧ script.kind = "script" ∧
        script.text = some "b" := by
  have hscript : (parse ⟨"a.html"⟩ overrunPage none).map
      (fun parsed => (parsed.tree.get? ⟨0⟩).map fun node => (node.kind, node.text)) =
        .ok (some ("script", some "b")) := by
    decide +kernel
  have hends : EndsRawText "script" "</scriptx><br>b<style>c".toList := by
    unfold EndsRawText
    decide
  have hnot : ¬ EndsRawText "script" "a</scriptx><br>b<style>c".toList := by
    unfold EndsRawText
    decide
  obtain ⟨parsed, hparsed, hscript⟩ := map_eq_ok_iff.mp hscript
  obtain ⟨script, hget, hnode⟩ := Option.map_eq_some_iff.mp hscript
  obtain ⟨hkind, htext⟩ := Prod.mk.inj hnode
  refine ⟨?_, ⟨"<script>".toList, "</scriptx><br>b<style>c".toList, ?_, ?_, Or.inr hends, ?_⟩,
    parsed, script, hparsed, hget, hkind, htext⟩
  · rw [tokens_overrunPage]
    rfl
  · decide
  · decide
  · intro before after hbody hne
    cases before with
    | nil =>
      cases hbody
      exact hnot
    | cons b before =>
      obtain ⟨-, hafter⟩ := List.append_eq_nil_iff.mp (List.cons.inj hbody).2.symm
      exact absurd hafter hne

end PageLint.Markup
