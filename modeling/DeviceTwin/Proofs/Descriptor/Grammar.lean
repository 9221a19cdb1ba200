import DeviceTwin.Proofs.Clean
import DeviceTwin.Proofs.Descriptor.Inner
import DeviceTwin.Proofs.Json.DistinctKeys

/-!
The grammar of type descriptors without references. A member is judged together with the members of
its descriptor, and an enumeration also by those that stand before it.
-/
namespace DeviceTwin

namespace Json

/-- A member is one of the fields, each of which is given with what its value has to be. -/
def Among (fields : List (String × (Json → Prop))) (key : String) (part : Json) : Prop :=
  ∃ p, (key, p) ∈ fields ∧ p part

/-- A text in two languages. Other members are not looked at. -/
def IsLabels (value : Json) : Prop :=
  ∃ members, value = .obj members ∧
    (∀ text, members.lookup "ja" = some text → text.IsText) ∧
      ∀ text, members.lookup "en" = some text → text.IsText

/-- A position of bits. Other members are not looked at. -/
def IsPosition (value : Json) : Prop :=
  ∃ members, value = .obj members ∧
    (∀ index, members.lookup "index" = some index → index.IsNumber) ∧
      ∀ mask, members.lookup "bitMask" = some mask → mask.IsText

/-- A code or a size. -/
def IsInteger (value : Json) : Prop := value.IsText ∨ value.IsNumber

def IsEntry : Json → Prop :=
  IsRecord (Among [("edt", IsInteger), ("state", IsLabels), ("numericValue", IsNumber),
    ("readOnly", IsTruth)])

/-- A part of an object. Its element is judged as a descriptor. -/
def IsPart : Json → Prop := IsRecord (Among [("name", IsText), ("element", fun _ => True)])

/-- A field of a bitmap. Its value is judged as a descriptor. -/
def IsField : Json → Prop :=
  IsRecord (Among [("name", IsText), ("descriptions", IsLabels), ("position", IsPosition),
    ("value", fun _ => True)])

end Json

namespace Descriptor

mutual

/-- The descriptors of the grammar. -/
inductive Conforms : Json → Prop
  | intro {members : List (String × Json)}
      (hknown : ∀ key ∈ Json.keys members, ∃ keyword : Keyword, keyword.name = key)
      (hsingle : Keyword.kind.name ∉ Json.keys members ∨ Keyword.oneOf.name ∉ Json.keys members)
      (hmembers : ∀ before (keyword : Keyword) value after,
        members = before ++ (keyword.name, value) :: after →
          ConformingMember members before keyword value) :
      Conforms (.obj members)

/-- `ConformingMember members before keyword value`: a member of a descriptor with all of these
members, where `before` stand before it. -/
inductive ConformingMember :
    List (String × Json) → List (String × Json) → Keyword → Json → Prop
  | kind {members before} {tag : Tag} (htag : tag ∈ Tag.named) :
      ConformingMember members before .kind (.str tag.name)
  | format {members before} (format : NumberFormat) :
      ConformingMember members before .format (.str format.name)
  | text {members before keyword value} (hkeyword : keyword ∈ [.unit, .base])
      (h : value.IsText) : ConformingMember members before keyword value
  | number {members before keyword value}
      (hkeyword : keyword ∈ [.multipleOf, .minSize, .maxSize, .itemSize, .minItems, .maxItems,
        .minimum, .maximum])
      (h : value.IsNumber) : ConformingMember members before keyword value
  | size {members before value} (h : value.IsInteger) : ConformingMember members before .size value
  | coefficient {members before items} (h : ∀ item ∈ items, item.IsText) :
      ConformingMember members before .coefficient (.arr items)
  | states {members before items}
      (hkind : (Keyword.kind.name, .str Tag.state.name) ∈ before ∨
        (Keyword.kind.name, .str Tag.numericValue.name) ∈ before)
      (h : ∀ item ∈ items, item.IsEntry) : ConformingMember members before .values (.arr items)
  | numbers {members before items} {format : NumberFormat}
      (hkind : (Keyword.kind.name, .str Tag.number.name) ∈ before)
      (hformat : (Keyword.format.name, .str format.name) ∈ before)
      (h : ∀ item ∈ items, item.IsNumber) : ConformingMember members before .values (.arr items)
  | properties {members before items}
      (hkind : (Keyword.kind.name, .str Tag.object.name) ∈ members)
      (h : ∀ item ∈ items, item.IsPart)
      (helements : ∀ element ∈ items.flatMap (·.valuesOf "element"), Conforms element) :
      ConformingMember members before .properties (.arr items)
  | items {members before value}
      (hkind : (Keyword.kind.name, .str Tag.array.name) ∈ members) (h : Conforms value) :
      ConformingMember members before .items value
  | bitmaps {members before items}
      (hkind : (Keyword.kind.name, .str Tag.bitmap.name) ∈ members)
      (h : ∀ item ∈ items, item.IsField)
      (hvalues : ∀ value ∈ items.flatMap (·.valuesOf "value"), Conforms value) :
      ConformingMember members before .bitmaps (.arr items)
  | oneOf {members before items} (h : ∀ item ∈ items, Conforms item) :
      ConformingMember members before .oneOf (.arr items)

end

/-- The descriptors that stand directly inside of a descriptor. -/
def nestedIn (members : List (String × Json)) : List Json :=
  members.flatMap fun (key, value) => inner {} key value

/-- `NestedAt depth descriptor nested`: the descriptor itself, or one that stands this many
descriptors further in. -/
inductive NestedAt : Nat → Json → Json → Prop
  | here {descriptor} : NestedAt 0 descriptor descriptor
  | inside {depth members child nested} (hchild : child ∈ nestedIn members)
      (h : NestedAt depth child nested) : NestedAt (depth + 1) (.obj members) nested

theorem within_of_mem_nestedIn {members : List (String × Json)} {child : Json}
    (h : child ∈ nestedIn members) : child.Within (.obj members) := by
  obtain ⟨⟨key, value⟩, hm, hchild⟩ := List.mem_flatMap.mp h
  exact (within_of_mem_inner hchild).trans (Json.Part.member hm).within

end Descriptor
end DeviceTwin
