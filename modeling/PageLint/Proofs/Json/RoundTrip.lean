import Mathlib.Data.List.Nodup
import PageLint.Json.Records
import PageLint.Proofs.Json.Reading

/-!
# Records through JSON

What is written of a value as JSON is read as the same value, for everything that an
analysis is made of. A codec is lawful if it reads what it writes; records are put together
from lawful fields.
-/

namespace PageLint

open Json

/-- What is written of a value is read as the value, is never null, and can be written as
text. -/
class LawfulJsonCodec (α : Type) [JsonCodec α] : Prop where
  whole (a : α) : (encode a).Whole
  encode_ne_null (a : α) : encode a ≠ .null
  decode_encode (a : α) : decode (encode a) = some a

/-- Every value is read from the text that is written for it. -/
def JsonCodec.RoundTrips (α : Type) [JsonCodec α] : Prop :=
  ∀ a : α, read? (compact (encode a)) = some a

theorem JsonCodec.roundTrips (α : Type) [JsonCodec α] [LawfulJsonCodec α] : RoundTrips α := by
  intro a
  rw [read?, parse?_compact (LawfulJsonCodec.whole a)]
  exact LawfulJsonCodec.decode_encode a

namespace Json

/-! ## Fields -/

section

variable {α : Type} [JsonCodec α] [LawfulJsonCodec α]

@[simp] theorem whole_encode (a : α) : (encode a).Whole := LawfulJsonCodec.whole a

@[simp] theorem needed_encode (a : α) : needed (some (encode a)) = some a :=
  LawfulJsonCodec.decode_encode a

@[simp] theorem whole_ofOption (o : Option α) : (ofOption o).Whole := by
  cases o with
  | none => trivial
  | some a => exact whole_encode a

@[simp] theorem omissible_ofOption (o : Option α) : omissible (some (ofOption o)) = some o := by
  cases o with
  | none => rfl
  | some a =>
    have hnull := LawfulJsonCodec.encode_ne_null a
    have hdecode := LawfulJsonCodec.decode_encode a
    rw [ofOption]
    unfold omissible
    split <;> simp_all

end

theorem wholeItems_iff {items : List Json} : WholeItems items ↔ ∀ item ∈ items, item.Whole := by
  induction items with
  | nil => simp [WholeItems]
  | cons item items ih => simp [WholeItems, ih]

theorem whole_record {members : List (String × Json)} (h : ∀ m ∈ members, m.2.Whole) :
    (record members).Whole := by
  change WholeMembers _
  induction members with
  | nil => trivial
  | cons m members ih =>
    obtain ⟨hm, hrest⟩ := List.forall_mem_cons.mp h
    exact ⟨hm, ih hrest⟩

theorem filter_key {members : List (String × Json)} (distinct : (members.map (·.1)).Nodup)
    {m : String × Json} (hm : m ∈ members) :
    (members.map fun m => (some m.1, m.2)).filter (·.1 = some m.1) = [(some m.1, m.2)] := by
  induction members with
  | nil => cases hm
  | cons first members ih =>
    obtain ⟨hfirst, hrest⟩ := List.nodup_cons.mp distinct
    change first.1 ∉ members.map (·.1) at hfirst
    rcases List.mem_cons.mp hm with rfl | hm
    · have hnone : (members.map fun m => (some m.1, m.2)).filter (·.1 = some m.1) = [] := by
        apply List.filter_eq_nil_iff.mpr
        intro e he heq
        obtain ⟨other, hother, rfl⟩ := List.mem_map.mp he
        rw [← Option.some.inj (of_decide_eq_true heq)] at hfirst
        exact hfirst (List.mem_map_of_mem hother)
      rw [List.map_cons, List.filter_cons_of_pos (by simp), hnone]
    · have hne : first.1 ≠ m.1 := by
        rintro heq
        rw [heq] at hfirst
        exact hfirst (List.mem_map_of_mem hm)
      rw [List.map_cons, List.filter_cons_of_neg (by simpa using hne), ih hrest hm]

theorem mapM_eq_some {α β : Type} {f : α → Option β} {g : α → β} {as : List α}
    (h : ∀ a ∈ as, f a = some (g a)) : as.mapM f = some (as.map g) := by
  induction as with
  | nil => rfl
  | cons a as ih =>
    obtain ⟨ha, has⟩ := List.forall_mem_cons.mp h
    rw [List.mapM_cons, ha, ih has]
    rfl

/-- The fields of a record are found by their names. -/
theorem fields?_record {members : List (String × Json)} {names : List String}
    (h : members.map (·.1) = names ∧ names.Nodup) :
    fields? names (record members) = some (members.map fun m => some m.2) := by
  obtain ⟨rfl, distinct⟩ := h
  have hkeys : (members.map fun m => (some m.1, m.2)).all (·.1.isSome) = true := by simp
  change (if (members.map fun m => (some m.1, m.2)).all (·.1.isSome) = true
    then (members.map (·.1)).mapM _ else none) = _
  rw [if_pos hkeys, List.mapM_map]
  apply mapM_eq_some
  intro m hm
  simp only [Function.comp_apply]
  rw [filter_key distinct hm]

/-- A record is read field by field. -/
theorem decode_record {α : Type} {a : α} {members : List (String × Json)} {names : List String}
    (h : members.map (·.1) = names ∧ names.Nodup) {ofFields : List (Option Json) → Option α}
    (hfields : ofFields (members.map fun m => some m.2) = some a) :
    (fields? names (record members)).bind ofFields = some a := by
  rw [fields?_record h]
  exact hfields

end Json

instance : LawfulJsonCodec String where
  whole _ := trivial
  encode_ne_null _ := nofun
  decode_encode _ := rfl

instance : LawfulJsonCodec UInt32 where
  whole _ := trivial
  encode_ne_null _ := nofun
  decode_encode n := by
    change (if n.toNat < UInt32.size then some (UInt32.ofNat n.toNat) else none) = _
    rw [if_pos n.toNat_lt, UInt32.ofNat_toNat]

instance {α : Type} [JsonCodec α] [LawfulJsonCodec α] : LawfulJsonCodec (List α) where
  whole as := by
    change WholeItems (as.map encode)
    simp [wholeItems_iff]
  encode_ne_null _ := nofun
  decode_encode as := by
    change (as.map encode).mapM decode = some as
    have hall : as.mapM (decode ∘ encode) = some (as.map id) :=
      mapM_eq_some fun a _ => LawfulJsonCodec.decode_encode a
    rw [List.mapM_map, hall, List.map_id]

/-! ## Positions -/

instance : LawfulJsonCodec Path where
  whole _ := trivial
  encode_ne_null _ := nofun
  decode_encode _ := rfl

instance : LawfulJsonCodec Position where
  whole _ := whole_record (by simp)
  encode_ne_null _ := nofun
  decode_encode _ := decode_record ⟨rfl, by simp⟩ (by simp)

instance : LawfulJsonCodec Offset where
  whole _ := whole_record (by simp)
  encode_ne_null _ := nofun
  decode_encode _ := decode_record ⟨rfl, by simp⟩ (by simp)

instance : LawfulJsonCodec SourceRange where
  whole _ := whole_record (by simp)
  encode_ne_null _ := nofun
  decode_encode _ := decode_record ⟨rfl, by simp⟩ (by simp)

/-! ## Warnings and names -/

instance : LawfulJsonCodec Severity where
  whole _ := trivial
  encode_ne_null _ := nofun
  decode_encode s := Severity.ofName?_name s

instance : LawfulJsonCodec Warning where
  whole _ := whole_record (by simp)
  encode_ne_null _ := nofun
  decode_encode _ := decode_record ⟨rfl, by simp⟩ (by simp)

instance : LawfulJsonCodec Verbosity where
  whole _ := trivial
  encode_ne_null _ := nofun
  decode_encode v := by cases v <;> decide

instance : LawfulJsonCodec Language where
  whole _ := trivial
  encode_ne_null _ := nofun
  decode_encode l := by cases l <;> decide

instance : LawfulJsonCodec ResolutionMode where
  whole _ := trivial
  encode_ne_null _ := nofun
  decode_encode m := by cases m <;> decide

namespace FeatureKind

theorem isKnown_of_mem_known : ∀ k ∈ known, k.isKnown = true := by decide

theorem ofName_name_of_isKnown {k : FeatureKind} (h : k.isKnown = true) : ofName k.name = k := by
  cases k with
  | custom name => cases h
  | _ => decide

/-- A kind is told by its name, unless it is custom and has the name of a known one. -/
theorem ofName_name_iff (k : FeatureKind) :
    ofName k.name = k ↔ ¬ ∃ name, k = .custom name ∧ ∃ other ∈ known, other.name = name := by
  constructor
  · rintro h ⟨name, rfl, other, hother, hname⟩
    change (known.find? (·.name = name)).getD (.custom name) = .custom name at h
    cases hfind : known.find? (·.name = name) with
    | none => exact List.find?_eq_none.mp hfind other hother (decide_eq_true hname)
    | some found =>
      rw [hfind] at h
      have hknown := isKnown_of_mem_known found (List.mem_of_find?_eq_some hfind)
      rw [show found = .custom name from h] at hknown
      cases hknown
  · intro h
    cases k with
    | custom name =>
      have hnone : known.find? (·.name = name) = none := by
        apply List.find?_eq_none.mpr
        intro other hother hname
        exact h ⟨name, rfl, other, hother, of_decide_eq_true hname⟩
      change (known.find? (·.name = name)).getD (.custom name) = _
      rw [hnone]
      rfl
    | _ => exact ofName_name_of_isKnown rfl

end FeatureKind

/-! ## Trees -/

instance : LawfulJsonCodec DocumentId where
  whole _ := trivial
  encode_ne_null _ := nofun
  decode_encode id := by
    change (decode (encode id.index)).map DocumentId.mk = _
    rw [LawfulJsonCodec.decode_encode]
    rfl

instance : LawfulJsonCodec NodeId where
  whole _ := trivial
  encode_ne_null _ := nofun
  decode_encode id := by
    change (decode (encode id.index)).map NodeId.mk = _
    rw [LawfulJsonCodec.decode_encode]
    rfl

instance : LawfulJsonCodec Param where
  whole _ := whole_record (by simp)
  encode_ne_null _ := nofun
  decode_encode _ := decode_record ⟨rfl, by simp⟩ (by simp)

instance : LawfulJsonCodec ReturnInfo where
  whole _ := whole_record (by simp)
  encode_ne_null _ := nofun
  decode_encode _ := decode_record ⟨rfl, by simp⟩ (by simp)

instance : LawfulJsonCodec Markup.Attribute where
  whole _ := whole_record (by simp)
  encode_ne_null _ := nofun
  decode_encode _ := decode_record ⟨rfl, by simp⟩ (by simp)

instance : LawfulJsonCodec Markup.Node where
  whole _ := whole_record (by simp)
  encode_ne_null _ := nofun
  decode_encode _ := decode_record ⟨rfl, by simp⟩ (by simp)

instance {ι α : Type} [JsonCodec α] [LawfulJsonCodec α] : LawfulJsonCodec (Arena ι α) where
  whole _ := whole_record (by simp)
  encode_ne_null _ := nofun
  decode_encode _ := decode_record ⟨rfl, by simp⟩ (by simp)

instance : LawfulJsonCodec Markup.Tree where
  whole _ := whole_record (by simp)
  encode_ne_null _ := nofun
  decode_encode _ := decode_record ⟨rfl, by simp⟩ (by simp)

instance : LawfulJsonCodec UInt8 where
  whole _ := trivial
  encode_ne_null _ := nofun
  decode_encode b := by
    change (if b.toNat < UInt8.size then some (UInt8.ofNat b.toNat) else none) = _
    rw [if_pos b.toNat_lt, UInt8.ofNat_toNat]

instance : LawfulJsonCodec ContentHash where
  whole hash := whole_encode hash.bytes.toList
  encode_ne_null _ := nofun
  decode_encode hash := by
    change (decode (encode hash.bytes.toList)).bind _ = _
    rw [LawfulJsonCodec.decode_encode]
    obtain ⟨⟨bytes, hsize⟩⟩ := hash
    simp [hsize]

/-- Everything that an analysis is made of is read from its JSON text as it was. A kind of
features is read as the kind of its name. -/
theorem json_roundTrips :
    JsonCodec.RoundTrips Position ∧ JsonCodec.RoundTrips Offset ∧
    JsonCodec.RoundTrips SourceRange ∧ JsonCodec.RoundTrips Severity ∧
    JsonCodec.RoundTrips Warning ∧ JsonCodec.RoundTrips Verbosity ∧
    JsonCodec.RoundTrips Language ∧ JsonCodec.RoundTrips ResolutionMode ∧
    JsonCodec.RoundTrips DocumentId ∧ JsonCodec.RoundTrips NodeId ∧
    JsonCodec.RoundTrips Param ∧ JsonCodec.RoundTrips ReturnInfo ∧
    JsonCodec.RoundTrips Markup.Attribute ∧ JsonCodec.RoundTrips Markup.Node ∧
    JsonCodec.RoundTrips Markup.Tree ∧ JsonCodec.RoundTrips ContentHash ∧
    ∀ k : FeatureKind, read? (compact (encode k)) = some (FeatureKind.ofName k.name) ∧
      (FeatureKind.ofName k.name = k ↔
        ¬ ∃ name, k = .custom name ∧ ∃ other ∈ FeatureKind.known, other.name = name) := by
  refine ⟨JsonCodec.roundTrips _, JsonCodec.roundTrips _, JsonCodec.roundTrips _,
    JsonCodec.roundTrips _, JsonCodec.roundTrips _, JsonCodec.roundTrips _,
    JsonCodec.roundTrips _, JsonCodec.roundTrips _, JsonCodec.roundTrips _,
    JsonCodec.roundTrips _, JsonCodec.roundTrips _, JsonCodec.roundTrips _,
    JsonCodec.roundTrips _, JsonCodec.roundTrips _, JsonCodec.roundTrips _,
    JsonCodec.roundTrips _, fun k => ⟨?_, k.ofName_name_iff⟩⟩
  have hwhole : (encode k).Whole := trivial
  rw [read?, parse?_compact hwhole]
  rfl

end PageLint
