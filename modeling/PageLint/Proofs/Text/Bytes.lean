import Mathlib.Data.Char
import Mathlib.Tactic.SplitIfs
import PageLint.Text.Basic

/-!
# Texts as bytes

The bytes of a text are those of its characters, one after the other, and a byte of ASCII is a
character of its own. Texts are ordered by their first difference in characters. In UTF-8 a later
character has later bytes from the first difference on, so this is the order of the bytes as well.
-/

namespace PageLint.Text

/-- The UTF-8 form of a text. -/
def bytes (s : String) : List UInt8 := s.toUTF8.data.toList

theorem bytes_eq (s : String) : bytes s = s.toList.flatMap String.utf8EncodeChar := by
  rw [bytes, String.toUTF8, ← String.utf8Encode_toList, List.utf8Encode,
    List.toList_data_toByteArray]

/-- A byte of ASCII is the whole of its character. -/
theorem toNat_of_mem_utf8EncodeChar {c : Char} {byte : UInt8} (h : byte ∈ String.utf8EncodeChar c)
    (hbyte : byte.toNat < 128) : c.val.toNat = byte.toNat := by
  unfold String.utf8EncodeChar at h
  generalize c.val.toNat = v at h
  simp only at h
  split_ifs at h
  all_goals
    simp only [List.mem_cons, List.not_mem_nil, or_false, ← UInt8.toNat_inj,
      UInt8.toNat_ofNat'] at h
    simp (disch := omega) only [Nat.mod_eq_of_lt] at h
    omega

theorem eq_of_mem_utf8EncodeChar {c d : Char} {byte : UInt8} (h : byte ∈ String.utf8EncodeChar c)
    (hbyte : byte.toNat < 128) (hd : d.val.toNat = byte.toNat) : c = d :=
  Char.ext (UInt32.toNat_inj.mp ((toNat_of_mem_utf8EncodeChar h hbyte).trans hd.symm))

theorem length_flatMap_utf8EncodeChar (cs : List Char) :
    (cs.flatMap String.utf8EncodeChar).length = byteLength cs := by
  induction cs with
  | nil => rfl
  | cons c cs ih =>
    rw [List.flatMap_cons, List.length_append, String.length_utf8EncodeChar, ih, byteLength_cons]

theorem count_flatMap_utf8EncodeChar (cs : List Char) :
    (cs.flatMap String.utf8EncodeChar).count 10 = cs.count '\n' := by
  induction cs with
  | nil => rfl
  | cons c cs ih =>
    rw [List.flatMap_cons, List.count_append, ih]
    by_cases h : c = '\n'
    · rw [h, List.count_cons_self]
      exact Nat.add_comm _ _
    · have hnone : 10 ∉ String.utf8EncodeChar c := fun hmem =>
        h (eq_of_mem_utf8EncodeChar hmem (by decide) rfl)
      rw [List.count_cons_of_ne h, List.count_eq_zero.mpr hnone, Nat.zero_add]

theorem take_bytes {s : String} {pre post : List Char} (h : s.toList = pre ++ post) :
    (bytes s).take (byteLength pre) = pre.flatMap String.utf8EncodeChar := by
  rw [bytes_eq, h, List.flatMap_append, ← length_flatMap_utf8EncodeChar, List.take_left]

/-- The bytes of a later character are later, whatever follows the two. -/
theorem utf8EncodeChar_append_lt {c d : Char} (h : c < d) (xs ys : List UInt8) :
    String.utf8EncodeChar c ++ xs < String.utf8EncodeChar d ++ ys := by
  have hlt : c.val.toNat < d.val.toNat := h
  have hbound : d.val.toNat < 0x110000 := by
    have hvalid := d.valid
    unfold UInt32.isValidChar Nat.isValidChar at hvalid
    omega
  -- the digits to the base 64, of which each byte has one
  have hdigits (n : Nat) : n / 64 / 64 = n / 4096 ∧ n / 4096 / 64 = n / 262144 :=
    ⟨Nat.div_div_eq_div_mul n 64 64, Nat.div_div_eq_div_mul n 4096 64⟩
  have hc := hdigits c.val.toNat
  have hd := hdigits d.val.toNat
  unfold String.utf8EncodeChar
  generalize c.val.toNat = v at hlt hc
  generalize d.val.toNat = w at hlt hbound hd
  simp only
  split_ifs
  all_goals
    simp only [List.cons_append, List.nil_append, List.cons_lt_cons_iff, UInt8.lt_iff_toNat_lt,
      ← UInt8.toNat_inj, UInt8.toNat_ofNat']
    simp (disch := omega) only [Nat.mod_eq_of_lt]
    omega

theorem flatMap_utf8EncodeChar_lt {cs ds : List Char} (h : cs < ds) :
    cs.flatMap String.utf8EncodeChar < ds.flatMap String.utf8EncodeChar := by
  induction h with
  | @nil d ds =>
    rw [List.flatMap_nil, List.flatMap_cons]
    obtain ⟨byte, bytes, hbytes⟩ := List.exists_cons_of_ne_nil (@String.utf8EncodeChar_ne_nil d)
    rw [hbytes]
    exact List.nil_lt_cons _ _
  | cons h ih =>
    rw [List.flatMap_cons, List.flatMap_cons]
    exact List.append_left_lt ih
  | rel h =>
    rw [List.flatMap_cons, List.flatMap_cons]
    exact utf8EncodeChar_append_lt h _ _

theorem bytes_lt_iff {s t : String} : bytes s < bytes t ↔ s < t := by
  rw [bytes_eq, bytes_eq, String.lt_iff]
  refine ⟨fun h => ?_, flatMap_utf8EncodeChar_lt⟩
  by_contra hnot
  rcases List.le_iff_lt_or_eq.mp (List.not_lt.mp hnot) with hlt | heq
  · exact List.lt_asymm h (flatMap_utf8EncodeChar_lt hlt)
  · rw [heq] at h
    exact List.lt_irrefl _ h

end PageLint.Text
