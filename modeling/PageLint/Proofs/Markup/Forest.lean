import PageLint.Proofs.Markup.Located

/-!
# Printed markup

Forests of elements and text, the markup that they are printed as, and the elements
that a tree of that markup should have. Offsets are byte offsets in the print.
-/

namespace PageLint.Markup

open Text (byteLength)

/-- The name and the attributes of an element. -/
structure Tag where
  name : String
  attributes : List (String × Option String)

/-- Elements and texts in order. Every kind of element stands before what follows it. -/
inductive Forest where
  | nil
  | text (content : String) (rest : Forest)
  | void (tag : Tag) (rest : Forest)
  /-- An element with a body that is not markup. -/
  | raw (tag : Tag) (body : String) (rest : Forest)
  | element (tag : Tag) (content rest : Forest)

/-! ## Printing -/

/-- An attribute after a blank; a value stands in double quotes. -/
def printAttribute : String × Option String → List Char
  | (name, none) => ' ' :: name.toList
  | (name, some value) => ' ' :: (name.toList ++ '=' :: '"' :: (value.toList ++ ['"']))

/-- Attributes one after the other. -/
def printAttributes (attributes : List (String × Option String)) : List Char :=
  attributes.flatMap printAttribute

namespace Tag

/-- The start tag. -/
def opening (tag : Tag) : List Char :=
  '<' :: (tag.name.toList ++ (printAttributes tag.attributes ++ ['>']))

/-- The end tag. -/
def closing (tag : Tag) : List Char := '<' :: '/' :: (tag.name.toList ++ ['>'])

end Tag

namespace Forest

/-- The markup of a forest. -/
def print : Forest → List Char
  | nil => []
  | text content rest => content.toList ++ rest.print
  | void tag rest => tag.opening ++ rest.print
  | raw tag body rest => tag.opening ++ (body.toList ++ (tag.closing ++ rest.print))
  | element tag content rest => tag.opening ++ (content.print ++ (tag.closing ++ rest.print))

/-- The number of elements. -/
def size : Forest → Nat
  | nil => 0
  | text _ rest => rest.size
  | void _ rest => rest.size + 1
  | raw _ _ rest => rest.size + 1
  | element _ content rest => content.size + rest.size + 1

end Forest

/-! ## What markup may be printed -/

/-- A character that ends no name and is no capital letter. -/
def IsNameChar (c : Char) : Prop :=
  Text.isMarkupSpace c = false ∧ c ≠ '>' ∧ c ≠ '/' ∧ c.isUpper = false

instance (c : Char) : Decidable (IsNameChar c) := inferInstanceAs (Decidable (_ ∧ _))

/-- An attribute with a name that reads as one, and a value that has no quote in it. -/
def IsAttribute (a : String × Option String) : Prop :=
  a.1 ≠ "" ∧ (∀ c ∈ a.1.toList, IsNameChar c ∧ c ≠ '=') ∧ ∀ value ∈ a.2, '"' ∉ value.toList

instance (a : String × Option String) : Decidable (IsAttribute a) :=
  have : Decidable (∀ c ∈ a.1.toList, IsNameChar c ∧ c ≠ '=') := List.decidableBAll _ _
  inferInstanceAs (Decidable (_ ∧ _ ∧ _))

/-- A name that starts with a small letter. -/
def IsTagName : List Char → Prop
  | [] => False
  | c :: cs => c.isLower = true ∧ ∀ d ∈ cs, IsNameChar d

instance : (cs : List Char) → Decidable (IsTagName cs)
  | [] => inferInstanceAs (Decidable False)
  | _ :: cs =>
    have : Decidable (∀ d ∈ cs, IsNameChar d) := List.decidableBAll _ _
    inferInstanceAs (Decidable (_ ∧ _))

/-- The name and the attributes of a tag can be read back. -/
def Tag.WellFormed (tag : Tag) : Prop :=
  IsTagName tag.name.toList ∧ ∀ a ∈ tag.attributes, IsAttribute a

instance (tag : Tag) : Decidable tag.WellFormed := inferInstanceAs (Decidable (_ ∧ _))

namespace Forest

/-- Text opens no tag, the body of a raw text element does not close it, and elements
without end tag hold nothing. -/
def WellFormed : Forest → Prop
  | nil => True
  | text content rest => '<' ∉ content.toList ∧ rest.WellFormed
  | void tag rest => tag.WellFormed ∧ tag.name ∈ voidElements ∧ rest.WellFormed
  | raw tag body rest => tag.WellFormed ∧ isRawTextElement tag.name ∧
      ¬ '<' :: '/' :: tag.name.toList <:+: body.toList.map Char.toLower ∧ rest.WellFormed
  | element tag content rest => tag.WellFormed ∧ tag.name ∉ voidElements ∧
      ¬ isRawTextElement tag.name ∧ content.WellFormed ∧ rest.WellFormed

instance decidableWellFormed : (f : Forest) → Decidable f.WellFormed
  | nil => inferInstanceAs (Decidable True)
  | text _ rest =>
    have := decidableWellFormed rest
    inferInstanceAs (Decidable (_ ∧ rest.WellFormed))
  | void _ rest =>
    have := decidableWellFormed rest
    inferInstanceAs (Decidable (_ ∧ _ ∧ rest.WellFormed))
  | raw _ _ rest =>
    have := decidableWellFormed rest
    inferInstanceAs (Decidable (_ ∧ _ ∧ _ ∧ rest.WellFormed))
  | element _ content rest =>
    have := decidableWellFormed content
    have := decidableWellFormed rest
    inferInstanceAs (Decidable (_ ∧ _ ∧ _ ∧ content.WellFormed ∧ rest.WellFormed))

end Forest

/-! ## The elements of a print -/

/-- The attributes that are read where attributes are printed from byte `offset` on. -/
def rawAttributes (offset : Nat) : List (String × Option String) → List RawAttribute
  | [] => []
  | (name, none) :: attributes =>
    let stop := offset + 1 + byteLength name.toList
    ⟨name, ⟨offset + 1, stop⟩, none⟩ :: rawAttributes stop attributes
  | (name, some value) :: attributes =>
    let stop := offset + 1 + byteLength name.toList
    let valueStop := stop + 2 + byteLength value.toList
    ⟨name, ⟨offset + 1, stop⟩, some ⟨value, ⟨stop + 2, valueStop⟩⟩⟩ ::
      rawAttributes (valueStop + 1) attributes

/-- The attributes of a tag that is printed from byte `offset` on. -/
def Tag.attributesAt (tag : Tag) (file : SourceFile) (offset : Nat) : List Attribute :=
  (rawAttributes (offset + 1 + byteLength tag.name.toList) tag.attributes).map (·.located file)

/-- The element of a tag that is printed from byte `offset` of a file on and ends at byte
`stop`. -/
def Tag.node (tag : Tag) (file : SourceFile) (offset stop : Nat) (parent : Option NodeId) : Node :=
  ⟨tag.name, file.rangeOf ⟨offset, stop⟩, tag.attributesAt file offset, none, none, parent⟩

/-- The raw text element of a tag that is printed with its body from byte `offset` of a
file on. -/
def Tag.rawNode (tag : Tag) (file : SourceFile) (offset : Nat) (body : String)
    (parent : Option NodeId) : Node :=
  let inner := offset + byteLength tag.opening
  let stop := inner + byteLength body.toList
  { tag.node file offset (stop + byteLength tag.closing) parent with
    textRange := some (file.rangeOf ⟨inner, stop⟩)
    text := some body }

namespace Forest

/-- The elements of a forest that is printed from byte `offset` of a file on, in the
order of their start tags. The first of them gets the number `first`; `parent` is the
element around the forest. -/
def nodes (file : SourceFile) :
    (offset first : Nat) → (parent : Option NodeId) → Forest → List Node
  | _, _, _, nil => []
  | offset, first, parent, text content rest =>
    rest.nodes file (offset + byteLength content.toList) first parent
  | offset, first, parent, void tag rest =>
    let stop := offset + byteLength tag.opening
    tag.node file offset stop parent :: rest.nodes file stop (first + 1) parent
  | offset, first, parent, raw tag body rest =>
    let stop := offset + byteLength tag.opening + byteLength body.toList + byteLength tag.closing
    tag.rawNode file offset body parent :: rest.nodes file stop (first + 1) parent
  | offset, first, parent, element tag content rest =>
    let inner := offset + byteLength tag.opening
    let stop := inner + byteLength content.print + byteLength tag.closing
    tag.node file offset stop parent ::
      (content.nodes file inner (first + 1) (some (Arena.idOf first)) ++
        rest.nodes file stop (first + 1 + content.size) parent)

theorem length_nodes (file : SourceFile) (offset first : Nat) (parent : Option NodeId)
    (f : Forest) : (f.nodes file offset first parent).length = f.size := by
  induction f generalizing offset first parent with
  | nil => rfl
  | text content rest ih => exact ih _ _ _
  | void tag rest ih => exact congrArg (· + 1) (ih _ _ _)
  | raw tag body rest ih => exact congrArg (· + 1) (ih _ _ _)
  | element tag content rest ihcontent ihrest =>
    rw [nodes, List.length_cons, List.length_append, ihcontent, ihrest]
    rfl

/-- Every element takes up a byte at least. -/
theorem size_le_byteLength_print (f : Forest) : f.size ≤ byteLength f.print := by
  have hopening : ∀ tag : Tag, 1 ≤ byteLength tag.opening := by
    intro tag
    rw [Tag.opening, Text.byteLength_cons]
    exact Nat.le_trans ('<'.utf8Size_pos) (Nat.le_add_right _ _)
  induction f with
  | nil => exact Nat.le_refl 0
  | text content rest ih =>
    rw [size, print, Text.byteLength_append]
    omega
  | void tag rest ih =>
    have := hopening tag
    rw [size, print, Text.byteLength_append]
    omega
  | raw tag body rest ih =>
    have := hopening tag
    simp only [size, print, Text.byteLength_append]
    omega
  | element tag content rest ihcontent ihrest =>
    have := hopening tag
    simp only [size, print, Text.byteLength_append]
    omega

end Forest

end PageLint.Markup
