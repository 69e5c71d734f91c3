import Mathlib.Data.List.Basic
import PageLint.Json.Parser
import PageLint.Json.Writer

/-!
# Tokens of written JSON

JSON that is written on one line is cut into the tokens it was written from: strings come
back with all their characters, whatever these are, and whole numbers with their value.
-/

namespace PageLint.Json

/-! ## Strings -/

theorem hexNumber?_digitChar :
    ∀ n < 0x20, hexNumber? '0' '0' (Nat.digitChar (n / 16)) (Nat.digitChar (n % 16)) = some n := by
  decide

theorem readString_control {c : Char} (hc : c.toNat < 0x20) (cs more : List Char) :
    readString (.text cs) (['\\', 'u', '0', '0', Nat.digitChar (c.toNat / 16),
      Nat.digitChar (c.toNat % 16)] ++ more) = readString (.text (c :: cs)) more := by
  have hhigh : isHighSurrogate c.toNat = false := by
    simp only [isHighSurrogate, Bool.and_eq_false_iff, decide_eq_false_iff_not]
    omega
  have hlow : isLowSurrogate c.toNat = false := by
    simp only [isLowSurrogate, Bool.and_eq_false_iff, decide_eq_false_iff_not]
    omega
  simp only [List.cons_append, List.nil_append, readString, hexNumber?_digitChar _ hc,
    Spelled.pushNumber, hhigh, hlow, Bool.false_eq_true, if_false, Char.ofNat_toNat]

theorem readString_plain {c : Char} (hquote : c ≠ '"') (hslash : c ≠ '\\') (hc : ¬ c.toNat < 0x20)
    (read : Spelled) (more : List Char) :
    readString read (c :: more) = readString (read.push c) more := by
  rw [readString, if_neg hc]
  all_goals simp [hquote, hslash]

theorem readString_writeChar (c : Char) (cs more : List Char) :
    readString (.text cs) (writeChar c ++ more) = readString (.text (c :: cs)) more := by
  unfold writeChar
  -- the characters that have a letter of their own
  iterate 7
    split
    · subst_vars
      rfl
  split
  · next hc => exact readString_control hc cs more
  · next hc => exact readString_plain ‹c ≠ '"'› ‹c ≠ '\\'› hc (.text cs) more

theorem readString_text (text cs rest : List Char) :
    readString (.text cs) (text.flatMap writeChar ++ '"' :: rest) =
      some (some (String.ofList (cs.reverse ++ text)), rest) := by
  induction text generalizing cs with
  | nil => simp [readString, Spelled.text?]
  | cons c text ih =>
    rw [List.flatMap_cons, List.append_assoc, readString_writeChar, ih]
    simp

theorem readToken_writeString (text : Option String) (rest : List Char) :
    readToken (writeString text ++ rest) = some (.string text, rest) := by
  cases text with
  | none => rfl
  | some text =>
    rw [writeString, List.cons_append, List.append_assoc]
    change (readString (.text []) (text.toList.flatMap writeChar ++ '"' :: rest)).map _ = _
    rw [readString_text]
    simp

/-! ## Whole numbers -/

/-- What may come right after a value. -/
def Follows (rest : List Char) : Prop := ∀ c ∈ rest.head?, c = ',' ∨ c = ']' ∨ c = '}' ∨ c = '\n'

theorem follows_nil : Follows [] := nofun

theorem follows_cons {c : Char} (hc : c = ',' ∨ c = ']' ∨ c = '}' ∨ c = '\n') (rest : List Char) :
    Follows (c :: rest) := by
  rintro c' ⟨⟩
  exact hc

theorem Follows.readFraction {rest : List Char} (h : Follows rest) :
    readFraction rest = some ([], rest) := by
  cases rest with
  | nil => rfl
  | cons c rest =>
    rcases h c rfl with rfl | rfl | rfl | rfl
    all_goals rfl

theorem Follows.readExponent {rest : List Char} (h : Follows rest) :
    readExponent rest = some ([], rest) := by
  cases rest with
  | nil => rfl
  | cons c rest =>
    rcases h c rfl with rfl | rfl | rfl | rfl
    all_goals rfl

theorem Follows.span_isDigit {rest : List Char} (h : Follows rest) {digits : List Char}
    (hdigits : ∀ c ∈ digits, c.isDigit = true) :
    (digits ++ rest).takeWhile Char.isDigit = digits ∧
      (digits ++ rest).dropWhile Char.isDigit = rest := by
  rw [List.takeWhile_append_of_pos hdigits, List.dropWhile_append_of_pos hdigits]
  cases rest with
  | nil => simp
  | cons c rest =>
    have hc : c.isDigit = false := by
      rcases h c rfl with rfl | rfl | rfl | rfl
      all_goals rfl
    simp [hc]

theorem eq_zero_of_digitChar : ∀ n < 10, Nat.digitChar n = '0' → n = 0 := by decide

/-- Only zero is written with a zero in front. -/
theorem eq_zero_of_head?_toDigits {n : Nat} (h : (Nat.toDigits 10 n).head? = some '0') :
    n = 0 := by
  induction n using Nat.strongRecOn with
  | ind n ih =>
    by_cases hn : n < 10
    · rw [Nat.toDigits_of_lt_base hn] at h
      exact eq_zero_of_digitChar n hn (Option.some.inj h)
    · rw [Nat.toDigits_of_base_le (by decide) (Nat.le_of_not_lt hn),
        List.head?_append_of_ne_nil _ Nat.toDigits_ne_nil] at h
      have hzero := ih (n / 10) (by omega) h
      omega

theorem decimal_toDigits (n : Nat) : decimal (Nat.toDigits 10 n) = n :=
  Nat.ofDigitChars_toDigits (by decide) (by decide)

theorem readNumber_toDigits (n : Nat) {rest : List Char} (h : Follows rest) :
    readNumber [] (Nat.toDigits 10 n ++ rest) = some (.natural n, rest) := by
  have hdigits : ∀ c ∈ Nat.toDigits 10 n, c.isDigit = true :=
    fun c hc => Nat.isDigit_of_mem_toDigits (by decide) (by decide) hc
  obtain ⟨htake, hdrop⟩ := h.span_isDigit hdigits
  have hnumeral : ¬ (decide (Nat.toDigits 10 n = []) ||
      decide ((Nat.toDigits 10 n).head? = some '0') &&
        decide ((Nat.toDigits 10 n).length ≠ 1)) = true := by
    rw [Bool.or_eq_true, Bool.and_eq_true, decide_eq_true_eq, decide_eq_true_eq, decide_eq_true_eq]
    rintro (hnil | ⟨hzero, hlength⟩)
    · exact Nat.toDigits_ne_nil hnil
    · obtain rfl := eq_zero_of_head?_toDigits hzero
      exact hlength rfl
  rw [readNumber, htake, hdrop, h.readFraction]
  simp only
  rw [if_neg hnumeral]
  simp [h.readExponent, decimal_toDigits]

theorem readToken_of_isDigit {c : Char} (hc : c.isDigit = true) (cs : List Char) :
    readToken (c :: cs) = readNumber [] (c :: cs) := by
  rw [readToken.eq_def]
  split <;> simp_all

theorem exists_cons_toDigits (n : Nat) :
    ∃ c cs, Nat.toDigits 10 n = c :: cs ∧ c.isDigit = true := by
  obtain ⟨c, cs, hcs⟩ := List.exists_cons_of_ne_nil (Nat.toDigits_ne_nil (n := n) (b := 10))
  refine ⟨c, cs, hcs, Nat.isDigit_of_mem_toDigits (b := 10) (n := n) (by decide) (by decide) ?_⟩
  rw [hcs]
  exact List.mem_cons_self

theorem readToken_toDigits (n : Nat) {rest : List Char} (h : Follows rest) :
    readToken (Nat.toDigits 10 n ++ rest) = some (.natural n, rest) := by
  obtain ⟨c, cs, hcs, hc⟩ := exists_cons_toDigits n
  have hread := readNumber_toDigits n h
  rw [hcs, List.cons_append] at hread ⊢
  rw [readToken_of_isDigit hc, hread]

theorem isSpace_of_isDigit {c : Char} (hc : c.isDigit = true) : isSpace c = false := by
  rw [isSpace, Bool.eq_false_iff]
  intro hspace
  simp only [Bool.or_eq_true, decide_eq_true_eq] at hspace
  rcases hspace with ((rfl | rfl) | rfl) | rfl
  all_goals cases hc

/-! ## Values -/

mutual

/-- The tokens that a value is written with. -/
def tokensOf : Json → List Token
  | .null => [.null]
  | .bool b => [.bool b]
  | .natural n => [.natural n]
  | .number literal => [.number literal]
  | .string text => [.string text]
  | .array items => .openArray :: (tokensOfItems items ++ [.closeArray])
  | .object members => .openObject :: (tokensOfMembers members ++ [.closeObject])

def tokensOfItems : List Json → List Token
  | [] => []
  | [item] => tokensOf item
  | item :: items => tokensOf item ++ .comma :: tokensOfItems items

def tokensOfMembers : List (Option String × Json) → List Token
  | [] => []
  | [(key, value)] => .string key :: .colon :: tokensOf value
  | (key, value) :: members =>
    .string key :: .colon :: (tokensOf value ++ .comma :: tokensOfMembers members)

end

mutual

/-- All numbers in the value are whole. -/
def Whole : Json → Prop
  | .null => True
  | .bool _ => True
  | .natural _ => True
  | .number _ => False
  | .string _ => True
  | .array items => WholeItems items
  | .object members => WholeMembers members

def WholeItems : List Json → Prop
  | [] => True
  | item :: items => item.Whole ∧ WholeItems items

def WholeMembers : List (Option String × Json) → Prop
  | [] => True
  | (_, value) :: members => value.Whole ∧ WholeMembers members

end

/-- The text is cut into some tokens, as long as there is no limit below its length. -/
def Cuts (cs : List Char) (ts : List Token) : Prop :=
  ∀ limit, cs.length ≤ limit → tokensUpTo limit cs = some ts

theorem cuts_nil : Cuts [] [] := by
  intro limit _
  rw [tokensUpTo.eq_def]
  rfl

theorem Cuts.token {rest : List Char} {ts : List Token} (h : Cuts rest ts) {t : Token}
    {c : Char} (cs : List Char) (hc : isSpace c = false)
    (hread : readToken (c :: cs ++ rest) = some (t, rest)) :
    Cuts (c :: cs ++ rest) (t :: ts) := by
  intro limit hlimit
  have hlength : (c :: cs ++ rest).length = cs.length + rest.length + 1 := by
    simp
  obtain ⟨limit, rfl⟩ := Nat.exists_eq_add_of_lt (show 0 < limit by omega)
  rw [tokensUpTo.eq_def]
  simp only [List.cons_append, List.dropWhile_cons, hc, Bool.false_eq_true, if_false]
  rw [List.cons_append] at hread
  rw [hread, Option.bind_eq_bind, Option.bind_some]
  simp only
  rw [h _ (by omega)]
  rfl

theorem Cuts.sign {rest : List Char} {ts : List Token} (h : Cuts rest ts) {t : Token} {c : Char}
    (hc : isSpace c = false) (hread : readToken (c :: rest) = some (t, rest)) :
    Cuts (c :: rest) (t :: ts) :=
  h.token [] hc hread

theorem Cuts.string {rest : List Char} {ts : List Token} (h : Cuts rest ts)
    (text : Option String) : Cuts (writeString text ++ rest) (.string text :: ts) := by
  have hread := readToken_writeString text rest
  cases text with
  | none => exact h.token _ rfl hread
  | some text => exact h.token _ rfl hread

theorem Cuts.natural {rest : List Char} {ts : List Token} (h : Cuts rest ts)
    (hrest : Follows rest) (n : Nat) : Cuts (Nat.toDigits 10 n ++ rest) (.natural n :: ts) := by
  have hread := readToken_toDigits n hrest
  obtain ⟨c, cs, hcs, hc⟩ := exists_cons_toDigits n
  rw [hcs] at hread ⊢
  exact h.token cs (isSpace_of_isDigit hc) hread

mutual

/-- What is written is cut into the tokens of the value, whatever may follow it. -/
theorem cuts_write {rest : List Char} {ts : List Token} (hrest : Follows rest) (h : Cuts rest ts) :
    ∀ j : Json, j.Whole → Cuts (write j ++ rest) (tokensOf j ++ ts)
  | .null, _ => h.token ['u', 'l', 'l'] rfl rfl
  | .bool true, _ => h.token ['r', 'u', 'e'] rfl rfl
  | .bool false, _ => h.token ['a', 'l', 's', 'e'] rfl rfl
  | .natural n, _ => h.natural hrest n
  | .number _, hwhole => hwhole.elim
  | .string text, _ => h.string text
  | .array items, hwhole => by
    have hclose : Cuts (']' :: rest) (.closeArray :: ts) := h.sign rfl rfl
    have hitems := cuts_writeItems (follows_cons (by decide) rest) hclose items hwhole
    have hopen : Cuts ('[' :: (writeItems items ++ ']' :: rest)) _ := hitems.sign rfl rfl
    simpa [write, tokensOf] using hopen
  | .object members, hwhole => by
    have hclose : Cuts ('}' :: rest) (.closeObject :: ts) := h.sign rfl rfl
    have hmembers := cuts_writeMembers (follows_cons (by decide) rest) hclose members hwhole
    have hopen : Cuts ('{' :: (writeMembers members ++ '}' :: rest)) _ := hmembers.sign rfl rfl
    simpa [write, tokensOf] using hopen

theorem cuts_writeItems {rest : List Char} {ts : List Token} (hrest : Follows rest)
    (h : Cuts rest ts) : ∀ items : List Json, WholeItems items →
      Cuts (writeItems items ++ rest) (tokensOfItems items ++ ts)
  | [], _ => h
  | [item], hwhole => cuts_write hrest h item hwhole.1
  | item :: next :: items, hwhole => by
    have hothers := cuts_writeItems hrest h (next :: items) hwhole.2
    have hcomma : Cuts (',' :: (writeItems (next :: items) ++ rest)) _ := hothers.sign rfl rfl
    have hitem := cuts_write (follows_cons (by decide) _) hcomma item hwhole.1
    simpa [writeItems, tokensOfItems] using hitem

theorem cuts_writeMembers {rest : List Char} {ts : List Token} (hrest : Follows rest)
    (h : Cuts rest ts) : ∀ members : List (Option String × Json), WholeMembers members →
      Cuts (writeMembers members ++ rest) (tokensOfMembers members ++ ts)
  | [], _ => h
  | [(key, value)], hwhole => by
    have hvalue := cuts_write hrest h value hwhole.1
    have hcolon : Cuts (':' :: (write value ++ rest)) _ := hvalue.sign rfl rfl
    simpa [writeMembers, tokensOfMembers] using hcolon.string key
  | (key, value) :: next :: members, hwhole => by
    have hothers := cuts_writeMembers hrest h (next :: members) hwhole.2
    have hcomma : Cuts (',' :: (writeMembers (next :: members) ++ rest)) _ :=
      hothers.sign rfl rfl
    have hvalue := cuts_write (follows_cons (by decide) _) hcomma value hwhole.1
    have hcolon : Cuts (':' :: (write value ++ ',' :: (writeMembers (next :: members) ++ rest))) _ :=
      hvalue.sign rfl rfl
    simpa [writeMembers, tokensOfMembers] using hcolon.string key

end

theorem tokens?_write {j : Json} (whole : j.Whole) : tokens? (write j) = some (tokensOf j) := by
  have hcuts := cuts_write follows_nil cuts_nil j whole
  rw [List.append_nil, List.append_nil] at hcuts
  exact hcuts _ (Nat.le_refl _)

end PageLint.Json
