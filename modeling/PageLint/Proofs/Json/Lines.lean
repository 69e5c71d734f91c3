import PageLint.Proofs.Json.Reading

/-!
# JSON over several lines

Line feeds and spaces between tokens change nothing: a value that is written over several lines
is cut into the same tokens as on one line, so it is read as the same value.
-/

namespace PageLint.Json

theorem Cuts.space {rest : List Char} {ts : List Token} (h : Cuts rest ts) {c : Char}
    (hc : isSpace c = true) : Cuts (c :: rest) ts := by
  intro limit hlimit
  have hskip : tokensUpTo limit (c :: rest) = tokensUpTo limit rest := by
    rw [tokensUpTo.eq_def, tokensUpTo.eq_def limit rest]
    simp only [List.dropWhile_cons_of_pos hc]
  rw [hskip]
  exact h limit (Nat.le_of_succ_le hlimit)

theorem Cuts.newLine {rest : List Char} {ts : List Token} (h : Cuts rest ts) (level : Nat) :
    Cuts (newLine level ++ rest) ts := by
  have hspaces (n : Nat) : Cuts (List.replicate n ' ' ++ rest) ts := by
    induction n with
    | zero => exact h
    | succ n ih => exact ih.space rfl
  exact (hspaces (2 * level)).space rfl

theorem follows_newLine (level : Nat) (rest : List Char) : Follows (newLine level ++ rest) :=
  follows_cons (by decide) _

mutual

/-- What is written over several lines is cut into the tokens of the value. -/
theorem cuts_writeLines {rest : List Char} {ts : List Token} (level : Nat) (hrest : Follows rest)
    (h : Cuts rest ts) : ∀ j : Json, j.Whole → Cuts (writeLines level j ++ rest) (tokensOf j ++ ts)
  | .null, hwhole => by
    rw [writeLines]
    exact cuts_write hrest h .null hwhole
  | .bool b, hwhole => by
    rw [writeLines]
    exact cuts_write hrest h (.bool b) hwhole
  | .natural n, hwhole => by
    rw [writeLines]
    exact cuts_write hrest h (.natural n) hwhole
  | .number _, hwhole => hwhole.elim
  | .string text, hwhole => by
    rw [writeLines]
    exact cuts_write hrest h (.string text) hwhole
  | .array [], hwhole => cuts_write hrest h (.array []) hwhole
  | .array (item :: items), hwhole => by
    have hclose : Cuts (newLine level ++ ']' :: rest) (.closeArray :: ts) :=
      (h.sign rfl rfl).newLine level
    have hitems := cuts_writeItemLines (level + 1) (follows_newLine level _) hclose
      (item :: items) hwhole
    have hopen : Cuts ('[' :: (writeItemLines (level + 1) (item :: items) ++
      (newLine level ++ ']' :: rest))) _ := hitems.sign rfl rfl
    simpa [writeLines, tokensOf] using hopen
  | .object [], hwhole => cuts_write hrest h (.object []) hwhole
  | .object (member :: members), hwhole => by
    have hclose : Cuts (newLine level ++ '}' :: rest) (.closeObject :: ts) :=
      (h.sign rfl rfl).newLine level
    have hmembers := cuts_writeMemberLines (level + 1) (follows_newLine level _) hclose
      (member :: members) hwhole
    have hopen : Cuts ('{' :: (writeMemberLines (level + 1) (member :: members) ++
      (newLine level ++ '}' :: rest))) _ := hmembers.sign rfl rfl
    simpa [writeLines, tokensOf] using hopen

theorem cuts_writeItemLines {rest : List Char} {ts : List Token} (level : Nat)
    (hrest : Follows rest) (h : Cuts rest ts) : ∀ items : List Json, WholeItems items →
      Cuts (writeItemLines level items ++ rest) (tokensOfItems items ++ ts)
  | [], _ => h
  | [item], hwhole => by
    have hitem := (cuts_writeLines level hrest h item hwhole.1).newLine level
    simpa [writeItemLines, tokensOfItems] using hitem
  | item :: next :: items, hwhole => by
    have hothers := cuts_writeItemLines level hrest h (next :: items) hwhole.2
    have hcomma : Cuts (',' :: (writeItemLines level (next :: items) ++ rest)) _ :=
      hothers.sign rfl rfl
    have hitem := (cuts_writeLines level (follows_cons (by decide) _) hcomma item
      hwhole.1).newLine level
    simpa [writeItemLines, tokensOfItems] using hitem

theorem cuts_writeMemberLines {rest : List Char} {ts : List Token} (level : Nat)
    (hrest : Follows rest) (h : Cuts rest ts) :
    ∀ members : List (Option String × Json), WholeMembers members →
      Cuts (writeMemberLines level members ++ rest) (tokensOfMembers members ++ ts)
  | [], _ => h
  | [(key, value)], hwhole => by
    have hvalue : Cuts (' ' :: (writeLines level value ++ rest)) _ :=
      (cuts_writeLines level hrest h value hwhole.1).space rfl
    have hcolon : Cuts (':' :: ' ' :: (writeLines level value ++ rest)) _ := hvalue.sign rfl rfl
    simpa [writeMemberLines, tokensOfMembers] using (hcolon.string key).newLine level
  | (key, value) :: next :: members, hwhole => by
    have hothers := cuts_writeMemberLines level hrest h (next :: members) hwhole.2
    have hcomma : Cuts (',' :: (writeMemberLines level (next :: members) ++ rest)) _ :=
      hothers.sign rfl rfl
    have hvalue : Cuts (' ' :: (writeLines level value ++
      ',' :: (writeMemberLines level (next :: members) ++ rest))) _ :=
      (cuts_writeLines level (follows_cons (by decide) _) hcomma value hwhole.1).space rfl
    have hcolon : Cuts (':' :: ' ' :: (writeLines level value ++
      ',' :: (writeMemberLines level (next :: members) ++ rest))) _ := hvalue.sign rfl rfl
    simpa [writeMemberLines, tokensOfMembers] using (hcolon.string key).newLine level

end

/-- A value that is written over several lines is read from them, a line feed after them
included. -/
theorem parse?_pretty {j : Json} (whole : j.Whole) : parse? (pretty j ++ "\n") = some j := by
  have hend : Cuts ['\n'] [] := cuts_nil.space rfl
  have hcuts := cuts_writeLines 0 (follows_cons (by decide) []) hend j whole
  rw [List.append_nil] at hcuts
  apply parse?_of_tokens
  rw [pretty, String.toList_append, String.toList_ofList]
  exact hcuts _ (Nat.le_refl _)

end PageLint.Json
