import Mathlib.Data.List.Chain
import PageLint.Proofs.Markup.Spans
import PageLint.Proofs.Text.Search

/-!
# The stream of tokens

The tokens of some markup come in pieces: a token of a byte at least, or the start tag of a
raw text element and its text. Such a text ends where an end tag follows, or nothing, and it
alone can be empty.
-/

namespace PageLint.Markup

def TokenKind.isText : TokenKind → Bool
  | .text _ => true
  | _ => false

/-! ## Where raw text ends -/

theorem opening_of_startsIgnoringCase {name : String} (h : isRawTextElement name = true)
    {cs : List Char} (hcs : Text.startsIgnoringCase ('<' :: '/' :: name.toList) cs = true) :
    Opening.of cs = .endTag := by
  obtain ⟨x, xs, hname, hx⟩ : ∃ x xs, name.toList = x :: xs ∧ x.isLower = true := by
    rcases isRawTextElement_iff.mp h with rfl | rfl
    · exact ⟨'s', "cript".toList, rfl, rfl⟩
    · exact ⟨'s', "tyle".toList, rfl, rfl⟩
  rw [hname] at hcs
  obtain ⟨more, hmore⟩ := Text.startsIgnoringCase_iff.mp hcs
  obtain ⟨a, as, rfl, ha, has⟩ := List.map_eq_cons_iff.mp hmore.symm
  obtain ⟨b, bs, rfl, hb, hbs⟩ := List.map_eq_cons_iff.mp has
  obtain ⟨c, cs, rfl, hc, -⟩ := List.map_eq_cons_iff.mp hbs
  -- The letter of the name may be a capital one; the signs before it are as they were written.
  rw [Text.eq_of_toLower_eq ha (by decide), Text.eq_of_toLower_eq hb (by decide)]
  exact if_pos (Text.isAlpha_of_toLower_eq hc hx)

theorem rawText_next {name : String} (h : isRawTextElement name = true) (c : Cursor) :
    (rawText name c).next.rest = [] ∨ Opening.of (rawText name c).next.rest = .endTag := by
  unfold rawText
  split
  · next k hk =>
    right
    exact opening_of_startsIgnoringCase h (Text.suffixIndex?_eq_some_iff.mp hk).2.1
  · exact Or.inl rfl

theorem not_isText_of_opening {c : Cursor} (h : Opening.of c.rest = .endTag) :
    ∀ t ∈ (lexed c).tokens.head?, t.kind.isText = false := by
  have hc : c.rest ≠ [] := by
    intro hnil
    rw [hnil] at h
    cases h
  have hstep : step c = endTag c := by rw [step, h]
  rw [lexed_of_rest_ne_nil hc, hstep]
  rintro t ⟨⟩
  rfl

/-! ## Pieces -/

/-- The tokens come one by one, none of them empty, but after the start tag of a raw text
element there is one token of text. -/
inductive InPieces : List Token → Prop
  | nil : InPieces []
  | single {t : Token} {ts : List Token} (kind : t.kind.opensRawText = false)
      (lt : t.span.start < t.span.stop) (rest : InPieces ts) : InPieces (t :: ts)
  | raw {tag text : Token} {ts : List Token} (kind : tag.kind.opensRawText = true)
      (lt : tag.span.start < tag.span.stop) (isText : text.kind.isText = true)
      (alone : ∀ t ∈ ts.head?, t.kind.isText = false) (rest : InPieces ts) :
      InPieces (tag :: text :: ts)

theorem inPieces_lexed {cs : List Char} {c : Cursor} (h : c.In cs) :
    InPieces (lexed c).tokens := by
  induction c using Cursor.stepwise with
  | done c hc =>
    rw [lexed_of_rest_nil hc]
    exact .nil
  | more c hc ih =>
    have hrest := ih (in_step h)
    rw [lexed_of_rest_ne_nil hc]
    rcases step_tokens h hc with ⟨kind, hkind, htokens⟩ |
      ⟨name, attributes, content, body, hname, hbody, hlt, hnext, -, htokens⟩
    · rw [htokens]
      exact .single hkind (h.offset_lt (in_step h) (length_rest_step_lt c hc)) hrest
    · rw [htokens]
      refine .raw ?_ (h.offset_lt hbody hlt) rfl ?_ hrest
      · exact hname
      · rw [hnext]
        rcases rawText_next hname body with hnil | hend
        · rw [lexed_of_rest_nil hnil]
          exact nofun
        · exact not_isText_of_opening hend

namespace InPieces

variable {ts : List Token} {n : Nat} {t : Token}

/-- An empty token is the text after the start tag of a raw text element. -/
theorem after_tag (h : InPieces ts) (ht : ts[n]? = some t) (hempty : t.span.start = t.span.stop) :
    t.kind.isText = true ∧
      ∃ m tag, n = m + 1 ∧ ts[m]? = some tag ∧ tag.kind.opensRawText = true := by
  induction h generalizing n with
  | nil => cases ht
  | single kind lt rest ih =>
    cases n with
    | zero =>
      cases ht
      exact absurd hempty (Nat.ne_of_lt lt)
    | succ n =>
      obtain ⟨htext, m, tag, rfl, htag⟩ := ih ht
      exact ⟨htext, m + 1, tag, rfl, htag⟩
  | @raw tag _ _ kind lt isText alone rest ih =>
    match n with
    | 0 =>
      cases ht
      exact absurd hempty (Nat.ne_of_lt lt)
    | 1 =>
      cases ht
      exact ⟨isText, 0, tag, rfl, rfl, kind⟩
    | n + 2 =>
      obtain ⟨htext, m, tag, rfl, htag⟩ := ih ht
      exact ⟨htext, m + 2, tag, rfl, htag⟩

/-- After the start tag of a raw text element there is text, and no more text after that. -/
theorem one_text (h : InPieces ts) (ht : ts[n]? = some t) (hkind : t.kind.opensRawText = true) :
    (∃ text, ts[n + 1]? = some text ∧ text.kind.isText = true) ∧
      ∀ u, ts[n + 2]? = some u → u.kind.isText = false := by
  induction h generalizing n with
  | nil => cases ht
  | single kind lt rest ih =>
    cases n with
    | zero =>
      cases ht
      rw [hkind] at kind
      cases kind
    | succ n => exact ih ht
  | @raw _ text ts kind lt isText alone rest ih =>
    match n with
    | 0 =>
      refine ⟨⟨text, rfl, isText⟩, ?_⟩
      intro u hu
      apply alone u
      rwa [List.head?_eq_getElem?]
    | 1 =>
      cases ht
      cases hk : t.kind with
      | text content =>
        rw [hk] at hkind
        cases hkind
      | _ =>
        rw [hk] at isText
        cases isText
    | n + 2 => exact ih ht

end InPieces

/-! ## From one token to the next -/

namespace Tiles

variable {start stop : Nat} {ts : List Token}

theorem isChain (h : Tiles start ts stop) :
    ts.IsChain fun t u => u.span.start = t.span.stop := by
  induction ts generalizing start with
  | nil => exact .nil
  | cons t ts ih =>
    cases ts with
    | nil => exact .singleton t
    | cons u ts => exact .cons_cons h.2.1 (ih h.2)

theorem exists_getLast? (h : Tiles start ts stop) (hne : ts ≠ []) :
    ∃ last, ts.getLast? = some last ∧ last.span.stop = stop := by
  induction ts generalizing start with
  | nil => exact absurd rfl hne
  | cons t ts ih =>
    cases ts with
    | nil => exact ⟨t, rfl, h.2⟩
    | cons u ts => exact ih h.2 (List.cons_ne_nil u ts)

theorem start_le (h : Tiles start ts stop) (le : ∀ t ∈ ts, t.span.start ≤ t.span.stop) :
    ∀ t ∈ ts, start ≤ t.span.start := by
  induction ts generalizing start with
  | nil => exact List.forall_mem_nil _
  | cons t ts ih =>
    obtain ⟨rfl, h⟩ := h
    obtain ⟨hle, le⟩ := List.forall_mem_cons.mp le
    exact List.forall_mem_cons.mpr ⟨Nat.le_refl _, fun u hu => Nat.le_trans hle (ih h le u hu)⟩

theorem pairwise (h : Tiles start ts stop) (le : ∀ t ∈ ts, t.span.start ≤ t.span.stop) :
    ts.Pairwise fun t u => t.span.stop ≤ u.span.start := by
  induction ts generalizing start with
  | nil => exact .nil
  | cons t ts ih =>
    obtain ⟨-, le⟩ := List.forall_mem_cons.mp le
    exact .cons (h.2.start_le le) (ih h.2 le)

end Tiles

/-- What was read covers the markup `cs`, in order and without gaps, between boundaries. -/
structure Lexed.Covering (cs : List Char) (read : Lexed) : Prop where
  nil (h : cs = []) : read.tokens = []
  first (h : cs ≠ []) : ∃ t, read.tokens.head? = some t ∧ t.span.start = 0
  last (h : cs ≠ []) : ∃ t, read.tokens.getLast? = some t ∧ t.span.stop = Text.byteLength cs
  adjacent : read.tokens.IsChain fun t u => u.span.start = t.span.stop
  tokens : ∀ t ∈ read.tokens, t.span.In cs ∧ ∀ raw ∈ t.attributes, raw.In cs
  problems : ∀ p ∈ read.problems, p.span.In cs
  /-- Only text after the start tag of a raw text element is empty. -/
  empty {n : Nat} {t : Token} (ht : read.tokens[n]? = some t)
    (h : t.span.start = t.span.stop) : t.kind.isText = true ∧
      ∃ m tag, n = m + 1 ∧ read.tokens[m]? = some tag ∧ tag.kind.opensRawText = true
  /-- One token of text comes after every such tag. -/
  rawText {n : Nat} {t : Token} (ht : read.tokens[n]? = some t)
    (h : t.kind.opensRawText = true) :
      (∃ text, read.tokens[n + 1]? = some text ∧ text.kind.isText = true) ∧
      ∀ u, read.tokens[n + 2]? = some u → u.kind.isText = false

/-- The tokens of all markup cover it, however malformed it is. -/
theorem covering_lex (source : String) : (lex source).Covering source.toList := by
  have htiles := tiles_lex source
  have hpieces : InPieces (lex source).tokens := inPieces_lexed (Cursor.in_start source)
  have hne (h : source.toList ≠ []) : (lex source).tokens ≠ [] := by
    intro hnil
    rw [hnil] at htiles
    have hlength := Text.length_le_byteLength source.toList
    have hpos := List.length_pos_iff.mpr h
    have hzero : 0 = Text.byteLength source.toList := htiles
    omega
  refine ⟨?_, ?_, fun h => htiles.exists_getLast? (hne h), htiles.isChain, ?_,
    problems_in_lex source, hpieces.after_tag, hpieces.one_text⟩
  · intro h
    rw [lex_eq_lexed, lexed_of_rest_nil h]
  · intro h
    obtain ⟨t, ts, htokens⟩ := List.exists_cons_of_ne_nil (hne h)
    rw [htokens] at htiles ⊢
    exact ⟨t, rfl, htiles.1⟩
  · intro t ht
    exact ⟨(covers_lex source t ht).span_in, attributes_in_lex source t ht⟩

end PageLint.Markup
