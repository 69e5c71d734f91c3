import PageLint.Proofs.Json.Tokens

/-!
# Reading written JSON

The tokens of a value are read as the value, whatever is open around it. So the text that is
written for a value is read as that value, provided that all numbers in it are whole.
-/

namespace PageLint.Json

open Reading (step)

/-- Where an array may still end, one that holds something goes on with its first item. -/
theorem foldlM_firstItem (item : Json) (items : List Json) (more : List Token)
    (stack : List Frame) :
    (tokensOfItems (item :: items) ++ more).foldlM step ⟨.firstItem, .array [] :: stack⟩ =
      (tokensOfItems (item :: items) ++ more).foldlM step ⟨.value, .array [] :: stack⟩ := by
  cases items <;> cases item <;> rfl

theorem foldlM_firstKey (member : Option String × Json) (members : List (Option String × Json))
    (more : List Token) (stack : List Frame) :
    (tokensOfMembers (member :: members) ++ more).foldlM step ⟨.firstKey, stack⟩ =
      (tokensOfMembers (member :: members) ++ more).foldlM step ⟨.key [], stack⟩ := by
  cases members <;> rfl

mutual

/-- The tokens of a value are read as the value, whatever is open around it. -/
theorem foldlM_tokensOf (stack : List Frame) :
    ∀ j : Json, (tokensOf j).foldlM step ⟨.value, stack⟩ = some ⟨.after j, stack⟩
  | .null => rfl
  | .bool _ => rfl
  | .natural _ => rfl
  | .number _ => rfl
  | .string _ => rfl
  | .array [] => rfl
  | .array (item :: items) => by
    have hitems := foldlM_tokensOfItems [] stack (item :: items) (List.cons_ne_nil _ _)
    rw [← foldlM_firstItem] at hitems
    exact hitems
  | .object [] => rfl
  | .object (member :: members) => by
    have hmembers := foldlM_tokensOfMembers [] stack (member :: members) (List.cons_ne_nil _ _)
    rw [← foldlM_firstKey] at hmembers
    exact hmembers

theorem foldlM_tokensOfItems (before : List Json) (stack : List Frame) :
    ∀ items : List Json, items ≠ [] →
      (tokensOfItems items ++ [Token.closeArray]).foldlM step ⟨.value, .array before :: stack⟩ =
        some ⟨.after (.array (before.reverse ++ items)), stack⟩
  | [], hne => absurd rfl hne
  | [item], _ => by
    rw [tokensOfItems, List.foldlM_append, foldlM_tokensOf, ← List.reverse_cons]
    rfl
  | item :: next :: items, _ => by
    have hothers := foldlM_tokensOfItems (item :: before) stack (next :: items)
      (List.cons_ne_nil _ _)
    rw [List.reverse_cons, List.append_assoc] at hothers
    rw [tokensOfItems, List.append_assoc, List.foldlM_append, foldlM_tokensOf]
    · exact hothers
    · exact nofun

theorem foldlM_tokensOfMembers (before : List (Option String × Json)) (stack : List Frame) :
    ∀ members : List (Option String × Json), members ≠ [] →
      (tokensOfMembers members ++ [Token.closeObject]).foldlM step ⟨.key before, stack⟩ =
        some ⟨.after (.object (before.reverse ++ members)), stack⟩
  | [], hne => absurd rfl hne
  | [(key, value)], _ => by
    change (tokensOf value ++ [Token.closeObject]).foldlM step
      ⟨.value, .object before key :: stack⟩ = _
    rw [List.foldlM_append, foldlM_tokensOf, ← List.reverse_cons]
    rfl
  | (key, value) :: next :: members, _ => by
    have hothers := foldlM_tokensOfMembers ((key, value) :: before) stack (next :: members)
      (List.cons_ne_nil _ _)
    rw [List.reverse_cons, List.append_assoc] at hothers
    change (tokensOf value ++ .comma :: tokensOfMembers (next :: members) ++
      [Token.closeObject]).foldlM step ⟨.value, .object before key :: stack⟩ = _
    rw [List.append_assoc, List.foldlM_append, foldlM_tokensOf]
    exact hothers

end

/-- A text that is cut into the tokens of a value is read as the value. -/
theorem parse?_of_tokens {text : String} {j : Json}
    (h : tokens? text.toList = some (tokensOf j)) : parse? text = some j := by
  rw [parse?, h]
  change ((tokensOf j).foldlM step ⟨.value, []⟩).bind Reading.result? = some j
  rw [foldlM_tokensOf]
  rfl

theorem parse?_compact {j : Json} (whole : j.Whole) : parse? (compact j) = some j := by
  apply parse?_of_tokens
  rw [compact, String.toList_ofList, tokens?_write whole]

end PageLint.Json
