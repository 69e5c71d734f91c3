import PageLint.Proofs.Markup.Lexing
import PageLint.Proofs.Text.Slice

/-!
# Tokens of text are verbatim

Reading never leaves the markup: every cursor is at a boundary with all that comes
after it ahead. Therefore the content of a token of text stands in the markup where
the token says.
-/

namespace PageLint.Markup

/-- The cursor is at a place of the markup `cs`. -/
def Cursor.In (cs : List Char) (c : Cursor) : Prop :=
  ∃ pre, cs = pre ++ c.rest ∧ Text.byteLength pre = c.offset

namespace Cursor.In

variable {cs : List Char} {c : Cursor}

theorem past (h : c.In cs) {taken rest : List Char} (hrest : c.rest = taken ++ rest) :
    Cursor.In cs ⟨c.offset + Text.byteLength taken, rest⟩ := by
  obtain ⟨pre, rfl, hoffset⟩ := h
  refine ⟨pre ++ taken, ?_, ?_⟩
  · rw [hrest, List.append_assoc]
  · rw [Text.byteLength_append, hoffset]

theorem standsAt (h : c.In cs) {taken rest : List Char} (hrest : c.rest = taken ++ rest) :
    Text.StandsAt cs c.offset taken := by
  obtain ⟨pre, rfl, hoffset⟩ := h
  exact ⟨pre, rest, by rw [hrest, List.append_assoc], hoffset⟩

theorem skip (h : c.In cs) (n : Nat) : (c.skip n).In cs :=
  h.past (List.take_append_drop n c.rest).symm

theorem skipWhile (h : c.In cs) (p : Char → Bool) : (c.skipWhile p).In cs :=
  h.past List.takeWhile_append_dropWhile.symm

theorem toEnd (h : c.In cs) : c.toEnd.In cs := h.past (List.append_nil _).symm

end Cursor.In

theorem Cursor.in_start (source : String) : (Cursor.start source).In source.toList :=
  ⟨[], rfl, rfl⟩

/-! ## Reading goes on inside the markup -/

section Next

variable {cs : List Char} {c : Cursor}

theorem in_valueAt (h : c.In cs) : (valueAt c).next.In cs := by
  have quoted (q : Char) : (quotedValue q c).next.In cs := ((h.skip 1).skipWhile _).skip 1
  unfold valueAt
  split
  · exact quoted '"'
  · exact quoted '\''
  · exact h.skipWhile _

theorem in_attributeAt (h : c.In cs) : (attributeAt c).next.In cs := by
  have hname : (afterName c).In cs := by
    unfold afterName
    split
    · exact h.skip 1
    · exact h.skipWhile _
  unfold attributeAt
  simp only
  split
  · exact in_valueAt (((hname.skipWhile _).skip 1).skipWhile _)
  · exact hname

theorem in_tagBody (h : c.In cs) : (tagBody c).next.In cs := by
  fun_induction tagBody c with
  | case1 c d hd => exact h.skipWhile _
  | case2 c d _ hd => exact (h.skipWhile _).skip 1
  | case3 c d _ hd => exact (h.skipWhile _).skip 2
  | case4 c d _ hd _ ih => exact ih ((h.skipWhile _).skip 1)
  | case5 c d x xs hx hclose hslash hd a body ih => exact ih (in_attributeAt (h.skipWhile _))

theorem in_rawText (name : String) (h : c.In cs) : (rawText name c).next.In cs := by
  unfold rawText
  split
  · exact h.skip _
  · exact h.toEnd

theorem in_startTag (h : c.In cs) : (startTag c).next.In cs := by
  have hbody := in_tagBody ((h.skip 1).skipWhile isStartTagNameChar)
  unfold startTag
  simp only
  split
  · exact in_rawText _ hbody
  · exact hbody

theorem in_step (h : c.In cs) : (step c).next.In cs := by
  unfold step
  split
  · unfold comment
    simp only
    split
    · exact (h.skip 4).skip _
    · exact (h.skip 4).toEnd
  · exact (h.skipWhile _).skip 1
  · exact (h.skipWhile _).skip 1
  · exact in_startTag h
  · exact (h.skip 1).skipWhile _

end Next

/-! ## Tokens of text -/

/-- If the token is one of text, its content is what stands in `cs` at its span. -/
def Token.Verbatim (cs : List Char) (t : Token) : Prop :=
  ∀ content, t.kind = .text content →
    Text.StandsAt cs t.span.start content.toList ∧
      t.span.stop = t.span.start + Text.byteLength content.toList

section Verbatim

variable {cs : List Char} {c : Cursor}

theorem verbatim_text (h : c.In cs) {taken rest : List Char} (hrest : c.rest = taken ++ rest)
    {stop : Cursor} (hstop : stop.offset = c.offset + Text.byteLength taken) :
    Token.Verbatim cs ⟨.text (String.ofList taken), c.spanTo stop⟩ := by
  rintro content ⟨⟩
  rw [String.toList_ofList]
  exact ⟨h.standsAt hrest, hstop⟩

theorem verbatim_of_not_text {t : Token} (h : ∀ content, t.kind ≠ .text content) :
    t.Verbatim cs :=
  fun content hkind => absurd hkind (h content)

theorem verbatim_rawText (name : String) (h : c.In cs) :
    ∀ t ∈ (rawText name c).tokens, t.Verbatim cs := by
  unfold rawText
  split
  · next k _ =>
    intro t ht
    rw [List.mem_singleton.mp ht]
    exact verbatim_text h (List.take_append_drop k c.rest).symm rfl
  · intro t ht
    rw [List.mem_singleton.mp ht]
    exact verbatim_text h (List.append_nil c.rest).symm rfl

theorem verbatim_startTag (h : c.In cs) : ∀ t ∈ (startTag c).tokens, t.Verbatim cs := by
  unfold startTag
  simp only
  split
  · refine List.forall_mem_cons.mpr ⟨verbatim_of_not_text nofun, ?_⟩
    exact verbatim_rawText _ (in_tagBody ((h.skip 1).skipWhile isStartTagNameChar))
  · intro t ht
    rw [List.mem_singleton.mp ht]
    exact verbatim_of_not_text nofun

theorem verbatim_step (h : c.In cs) : ∀ t ∈ (step c).tokens, t.Verbatim cs := by
  have single : ∀ {t' : Token}, t'.Verbatim cs → ∀ t ∈ [t'], t.Verbatim cs := by
    intro t' ht' t ht
    rwa [List.mem_singleton.mp ht]
  unfold step
  split
  · rw [comment_tokens]
    exact single (verbatim_of_not_text nofun)
  · exact single (verbatim_of_not_text nofun)
  · exact single (verbatim_of_not_text nofun)
  · exact verbatim_startTag h
  · have hrest : c.rest = c.rest.take 1 ++ (c.skip 1).run (· ≠ '<') ++
        ((c.skip 1).skipWhile (· ≠ '<')).rest := by
      change c.rest = c.rest.take 1 ++ (c.rest.drop 1).takeWhile _ ++ (c.rest.drop 1).dropWhile _
      rw [List.append_assoc, List.takeWhile_append_dropWhile, List.take_append_drop]
    apply single (verbatim_text h hrest _)
    rw [Text.byteLength_append, ← Nat.add_assoc]
    rfl

end Verbatim

/-- The content of every token of text stands where the token says. -/
theorem verbatim_lex (source : String) : ∀ t ∈ (lex source).tokens, t.Verbatim source.toList := by
  rw [lex_eq_lexed]
  exact forall_mem_lexed (fun _ h _ => verbatim_step h) (fun _ h _ => in_step h)
    (Cursor.in_start source)

end PageLint.Markup
