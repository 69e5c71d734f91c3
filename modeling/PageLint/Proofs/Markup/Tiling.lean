import PageLint.Proofs.Markup.Verbatim

/-!
# Tokens cover the markup

Every step of the lexer gives one token, or a start tag and the raw text after it.
From this it follows that the tokens of some markup cover it without gaps, from
boundary to boundary, and that only text can be empty.
-/

namespace PageLint.Markup

theorem Cursor.In.offset_add {cs : List Char} {c : Cursor} (h : c.In cs) :
    c.offset + Text.byteLength c.rest = Text.byteLength cs := by
  obtain ⟨pre, rfl, hoffset⟩ := h
  rw [Text.byteLength_append, hoffset]

theorem Cursor.In.isBoundary {cs : List Char} {c : Cursor} (h : c.In cs) :
    Text.IsBoundary cs c.offset := by
  obtain ⟨pre, rfl, hoffset⟩ := h
  exact ⟨pre, c.rest, rfl, hoffset⟩

/-- Of two cursors in the same markup, the one with less ahead is further on, by a byte
at least for every character between them. -/
theorem Cursor.In.offset_add_le {cs : List Char} {c d : Cursor} (hc : c.In cs) (hd : d.In cs)
    (hlen : d.rest.length ≤ c.rest.length) :
    c.offset + (c.rest.length - d.rest.length) ≤ d.offset := by
  have hbytes := hc.offset_add.trans hd.offset_add.symm
  obtain ⟨pre, hpre, -⟩ := hc
  obtain ⟨pre', hpre', -⟩ := hd
  rcases List.append_eq_append_iff.mp (hpre.symm.trans hpre') with ⟨mid, -, hrest⟩ | ⟨mid, -, hrest⟩
  · have hmid := Text.length_le_byteLength mid
    rw [hrest, Text.byteLength_append] at hbytes
    rw [hrest, List.length_append] at hlen ⊢
    omega
  · have hnil : mid = [] := by
      apply List.eq_nil_of_length_eq_zero
      rw [hrest, List.length_append] at hlen
      omega
    rw [hrest, hnil, List.nil_append] at hbytes ⊢
    omega

theorem Cursor.In.offset_lt {cs : List Char} {c d : Cursor} (hc : c.In cs) (hd : d.In cs)
    (hlen : d.rest.length < c.rest.length) : c.offset < d.offset := by
  have hle := hc.offset_add_le hd (Nat.le_of_lt hlen)
  omega

/-! ## What a step gives -/

theorem rawText_tokens (name : String) (c : Cursor) :
    ∃ content, (rawText name c).tokens = [⟨.text content, c.spanTo (rawText name c).next⟩] := by
  unfold rawText
  split
  · exact ⟨_, rfl⟩
  · exact ⟨_, rfl⟩

/-- Whether the token is a start tag that text follows, be it empty. -/
def TokenKind.opensRawText : TokenKind → Bool
  | .startTag name _ selfClosing => !selfClosing && isRawTextElement name
  | _ => false

/-- A step gives one token, or the start tag of a raw text element and its text. -/
theorem step_tokens {cs : List Char} {c : Cursor} (h : c.In cs) (hc : c.rest ≠ []) :
    (∃ kind, kind.opensRawText = false ∧ (step c).tokens = [⟨kind, c.spanTo (step c).next⟩]) ∨
      ∃ name attributes content, ∃ body : Cursor,
        isRawTextElement name = true ∧ body.In cs ∧ body.rest.length < c.rest.length ∧
        (step c).next = (rawText name body).next ∧
        (rawText name body).tokens = [⟨.text content, body.spanTo (step c).next⟩] ∧
        (step c).tokens =
          [⟨.startTag name attributes false, c.spanTo body⟩,
            ⟨.text content, body.spanTo (step c).next⟩] := by
  unfold step
  split
  · exact Or.inl ⟨_, rfl, comment_tokens c⟩
  · exact Or.inl ⟨_, rfl, rfl⟩
  · exact Or.inl ⟨_, rfl, rfl⟩
  · unfold startTag
    simp only [ne_eq, decide_not]
    split
    · next hraw =>
      let inner := (c.skip 1).skipWhile isStartTagNameChar
      have hpos := List.length_pos_iff.mpr hc
      have hskip := c.length_rest_skip 1
      have hname : inner.rest.length ≤ (c.skip 1).rest.length := Cursor.length_rest_skipWhile_le _ _
      have hbody := length_rest_tagBody_le inner
      obtain ⟨content, htext⟩ :=
        rawText_tokens (lowerName ((c.skip 1).run isStartTagNameChar)) (tagBody inner).next
      obtain ⟨hending, hraw⟩ := Bool.and_eq_true_iff.mp hraw
      rw [Bool.not_eq_true'] at hending
      refine Or.inr ⟨_, (tagBody inner).attributes, content, (tagBody inner).next, hraw,
        in_tagBody ((h.skip 1).skipWhile _), by omega, rfl, htext, ?_⟩
      rw [hending]
      exact congrArg (List.cons _) htext
    · next hraw =>
      refine Or.inl ⟨_, ?_, rfl⟩
      exact Bool.eq_false_iff.mpr hraw
  · exact Or.inl ⟨_, rfl, rfl⟩

/-! ## All tokens -/

/-- The tokens follow each other from byte `start` to byte `stop`. -/
def Tiles (start : Nat) : List Token → Nat → Prop
  | [], stop => start = stop
  | t :: ts, stop => t.span.start = start ∧ Tiles t.span.stop ts stop

theorem Tiles.append {start mid stop : Nat} {ts us : List Token} (h : Tiles start ts mid)
    (h' : Tiles mid us stop) : Tiles start (ts ++ us) stop := by
  induction ts generalizing start with
  | nil =>
    rcases h
    exact h'
  | cons t ts ih => exact ⟨h.1, ih h.2⟩

/-- The token runs between boundaries of the markup `cs`; only text can be empty. -/
structure Token.Covers (cs : List Char) (t : Token) : Prop where
  start : Text.IsBoundary cs t.span.start
  stop : Text.IsBoundary cs t.span.stop
  le : t.span.start ≤ t.span.stop
  lt (h : ∀ content, t.kind ≠ .text content) : t.span.start < t.span.stop

section

variable {cs : List Char} {c : Cursor}

theorem Cursor.In.covers_spanTo (hc : c.In cs) {d : Cursor} (hd : d.In cs)
    (hlen : d.rest.length < c.rest.length) (kind : TokenKind) :
    Token.Covers cs ⟨kind, c.spanTo d⟩ :=
  ⟨hc.isBoundary, hd.isBoundary, Nat.le_of_lt (hc.offset_lt hd hlen), fun _ => hc.offset_lt hd hlen⟩

theorem Cursor.In.covers_text (hc : c.In cs) {d : Cursor} (hd : d.In cs)
    (hlen : d.rest.length ≤ c.rest.length) (content : String) :
    Token.Covers cs ⟨.text content, c.spanTo d⟩ := by
  have hle := hc.offset_add_le hd hlen
  exact ⟨hc.isBoundary, hd.isBoundary, Nat.le_trans (Nat.le_add_right _ _) hle,
    fun h => absurd rfl (h content)⟩

theorem covers_step (h : c.In cs) (hc : c.rest ≠ []) : ∀ t ∈ (step c).tokens, t.Covers cs := by
  have hnext := in_step h
  have hlen := length_rest_step_lt c hc
  rcases step_tokens h hc with ⟨kind, -, htokens⟩ |
    ⟨name, attributes, content, body, -, hbody, hlt, hraw, -, htokens⟩
  · intro t ht
    rw [htokens, List.mem_singleton] at ht
    rw [ht]
    exact h.covers_spanTo hnext hlen kind
  · intro t ht
    rw [htokens, List.mem_cons, List.mem_singleton] at ht
    rcases ht with rfl | rfl
    · exact h.covers_spanTo hbody hlt _
    · exact hbody.covers_text hnext (hraw ▸ length_rest_rawText_le name body) content

theorem tiles_step (h : c.In cs) (hc : c.rest ≠ []) :
    Tiles c.offset (step c).tokens (step c).next.offset := by
  rcases step_tokens h hc with ⟨kind, -, htokens⟩ | ⟨_, _, _, body, -, -, -, -, -, htokens⟩
  · rw [htokens]
    exact ⟨rfl, rfl⟩
  · rw [htokens]
    exact ⟨rfl, rfl, rfl⟩

theorem tiles_lexed (h : c.In cs) : Tiles c.offset (lexed c).tokens (Text.byteLength cs) := by
  induction c using Cursor.stepwise with
  | done c hc =>
    rw [lexed_of_rest_nil hc]
    have hend := h.offset_add
    rw [hc] at hend
    exact hend
  | more c hc ih =>
    rw [lexed_of_rest_ne_nil hc]
    exact (tiles_step h hc).append (ih (in_step h))

end

/-- The tokens of some markup follow each other from its first byte to its end. -/
theorem tiles_lex (source : String) :
    Tiles 0 (lex source).tokens (Text.byteLength source.toList) :=
  tiles_lexed (Cursor.in_start source)

theorem covers_lex (source : String) : ∀ t ∈ (lex source).tokens, t.Covers source.toList := by
  rw [lex_eq_lexed]
  exact forall_mem_lexed (fun _ h hc => covers_step h hc) (fun _ h _ => in_step h)
    (Cursor.in_start source)

end PageLint.Markup
