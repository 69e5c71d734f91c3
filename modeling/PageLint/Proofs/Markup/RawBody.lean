import PageLint.Proofs.Markup.TokenStream

/-!
# Bodies of raw text elements

The token behind a start tag that opens raw text is the body of its element: it goes from the
end of the tag to the first end tag of the same name, in capital or small letters, or to the
end of the markup if there is none.
-/

namespace PageLint.Markup

/-- Raw text of an element of the name ends where these characters are ahead. -/
def EndsRawText (name : String) (ahead : List Char) : Prop :=
  '<' :: '/' :: name.toList <+: ahead.map Char.toLower

/-- The text stands in the markup `cs` from byte `k` up to the first place where the raw text of
an element of the name ends, or up to the end of the markup if there is no such place. -/
def IsRawBody (cs : List Char) (name : String) (k : Nat) (body : List Char) : Prop :=
  ∃ pre tail, cs = pre ++ (body ++ tail) ∧ Text.byteLength pre = k ∧
    (tail = [] ∨ EndsRawText name tail) ∧
    ∀ before after, body = before ++ after → after ≠ [] → ¬ EndsRawText name (after ++ tail)

theorem isRawBody_rawText {cs : List Char} {c : Cursor} (h : c.In cs) (name : String) :
    ∃ body, IsRawBody cs name c.offset body ∧ (rawText name c).tokens =
      [⟨.text (String.ofList body), ⟨c.offset, c.offset + Text.byteLength body⟩⟩] := by
  obtain ⟨pre, hcs, hpre⟩ := h
  have ends_iff (ahead : List Char) : EndsRawText name ahead ↔
      Text.startsIgnoringCase ('<' :: '/' :: name.toList) ahead = true :=
    Text.startsIgnoringCase_iff.symm
  unfold rawText
  split
  · next k hk =>
    obtain ⟨hle, hends, hfirst⟩ := Text.suffixIndex?_eq_some_iff.mp hk
    refine ⟨c.rest.take k, ⟨pre, c.rest.drop k, ?_, hpre, Or.inr ((ends_iff _).mpr hends), ?_⟩, rfl⟩
    · rwa [List.take_append_drop]
    · intro before after hbody hne
      have hlength := congrArg List.length hbody
      rw [List.length_take, List.length_append, Nat.min_eq_left hle] at hlength
      have hpos := List.length_pos_iff.mpr hne
      have hdrop : c.rest.drop before.length = after ++ c.rest.drop k := by
        conv => lhs; rw [← List.take_append_drop k c.rest, hbody, List.append_assoc]
        exact List.drop_left
      rw [ends_iff, ← hdrop, hfirst before.length (by omega)]
      exact Bool.false_ne_true
  · next hnone =>
    refine ⟨c.rest, ⟨pre, [], ?_, hpre, Or.inl rfl, ?_⟩, rfl⟩
    · rwa [List.append_nil]
    · intro before after hbody _
      have hnever := Text.suffixIndex?_eq_none hnone before.length
        (by rw [hbody, List.length_append]; exact Nat.le_add_right _ _)
      rw [hbody, List.drop_left] at hnever
      rw [List.append_nil, ends_iff, hnever]
      exact Bool.false_ne_true

/-- The token behind the start tag of a raw text element is its body. -/
theorem isRawBody_lexed {cs : List Char} {c : Cursor} (h : c.In cs) {n : Nat} {span : Span}
    {name : String} {attributes : List RawAttribute} (hraw : isRawTextElement name = true)
    (ht : (lexed c).tokens[n]? = some ⟨.startTag name attributes false, span⟩) :
    ∃ body, IsRawBody cs name span.stop body ∧ (lexed c).tokens[n + 1]? =
      some ⟨.text (String.ofList body), ⟨span.stop, span.stop + Text.byteLength body⟩⟩ := by
  induction c using Cursor.stepwise generalizing n with
  | done c hc =>
    rw [lexed_of_rest_nil hc] at ht
    cases ht
  | more c hc ih =>
    rw [lexed_of_rest_ne_nil hc] at ht ⊢
    rcases step_tokens h hc with ⟨kind, hkind, htokens⟩ |
      ⟨name', attributes', content, body, -, hbody, -, -, htext, htokens⟩
    · simp only [htokens, List.singleton_append] at ht ⊢
      cases n with
      | zero =>
        cases ht
        exact absurd hraw (ne_true_of_eq_false hkind)
      | succ n => exact ih (in_step h) ht
    · obtain ⟨found, hfound, htokens'⟩ := isRawBody_rawText hbody name'
      rw [htext] at htokens'
      simp only [htokens, List.cons_append, List.nil_append] at ht ⊢
      match n with
      | 0 =>
        cases ht
        exact ⟨found, hfound, congrArg List.head? htokens'⟩
      | 1 => cases ht
      | n + 2 => exact ih (in_step h) ht

theorem isRawBody_lex (source : String) {n : Nat} {span : Span} {name : String}
    {attributes : List RawAttribute} (hraw : isRawTextElement name = true)
    (ht : (lex source).tokens[n]? = some ⟨.startTag name attributes false, span⟩) :
    ∃ body, IsRawBody source.toList name span.stop body ∧ (lex source).tokens[n + 1]? =
      some ⟨.text (String.ofList body), ⟨span.stop, span.stop + Text.byteLength body⟩⟩ :=
  isRawBody_lexed (Cursor.in_start source) hraw ht

end PageLint.Markup
