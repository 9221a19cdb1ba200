import DeviceTwin.Proofs.Descriptor.Levels
import DeviceTwin.Proofs.Order

/-!
What a member writes. A member fills its own slots of an outline with what its value reads as, and
leaves all others as they are; a slot that is given at most once keeps what it holds.
-/
namespace DeviceTwin

namespace Outline

variable {α : Type} {o : Outline} {collection : String} {slot : Option α} {a : α}

/-- What is there already stays. -/
theorem record_fill (put : Option α → Outline) (h : put slot = o) :
    (Taken.ofExcept o ((fill collection slot a).map put)).record = put (slot.or (some a)) := by
  cases slot with
  | none => rfl
  | some existing => exact h.symm

theorem refusal_fill (put : Option α → Outline) :
    (Taken.ofExcept o ((fill collection slot a).map put)).refusal =
      slot.map fun _ => .alreadyPopulated collection := by
  cases slot <;> rfl

end Outline

namespace Descriptor

variable {scope : Scope} {below : Option Application} {active : List String} {o : Outline}
  {value : Json}

/-- The parts of an object. -/
def readParts (scope : Scope) (below : Option Application) (active : List String)
    (items : List Json) : Noted (List (Member Shape)) :=
  readItems (readRecord (takePart scope below active) { shape := {} }) 0 items

/-- The fields of a bitmap. -/
def readFields (scope : Scope) (below : Option Application) (active : List String)
    (items : List Json) : Noted (List (BitField Shape)) :=
  readItems (readRecord (takeField scope below active) { value := {} }) 0 items

theorem takeKeyword_properties : takeKeyword scope below active o .properties value =
    takeArray o value (readParts scope below active) (o.addChildren "properties") := rfl

theorem takeKeyword_bitmaps : takeKeyword scope below active o .bitmaps value =
    takeArray o value (readFields scope below active) o.addBitFields := rfl

section Records

/-! The outline behind each member. -/

theorem record_takeKind : (takeKeyword scope below active o .kind value).record =
    { o with kind := o.kind.or (readKind value).toOption } := by
  simp only [takeKeyword]
  cases readKind value with
  | error v => simp [Except.bind, Taken.ofExcept, Except.toOption]
  | ok kind =>
    simp only [Except.bind, Outline.fixKind, Except.toOption]
    cases o with
    | mk kind? => cases kind? <;> rfl

theorem record_takeFormat : (takeKeyword scope below active o .format value).record =
    { o with format := (readFormat value).toOption.or o.format } := by
  simp only [takeKeyword]
  cases readFormat value <;> rfl

theorem record_takeCoefficient : (takeKeyword scope below active o .coefficient value).record =
    { o with coefficients := o.coefficients.or (readCodes value).toOption } := by
  simp only [takeKeyword]
  cases readCodes value with
  | error v => simp [Except.bind, Taken.ofExcept, Except.toOption]
  | ok codes => exact Outline.record_fill _ rfl

theorem record_takeProperties : (takeKeyword scope below active o .properties value).record =
    { o with
      children := o.children.or (value.expectArray.toOption.map fun items =>
        ("properties", (readParts scope below active items).value)) } := by
  rw [takeKeyword_properties, takeArray]
  cases value.expectArray with
  | error v => simp [Taken.refused, Except.toOption]
  | ok items => exact Outline.record_fill _ rfl

theorem record_takeBitmaps : (takeKeyword scope below active o .bitmaps value).record =
    { o with
      bitFields := o.bitFields.or (value.expectArray.toOption.map fun items =>
        (readFields scope below active items).value) } := by
  rw [takeKeyword_bitmaps, takeArray]
  cases value.expectArray with
  | error v => simp [Taken.refused, Except.toOption]
  | ok items => exact Outline.record_fill _ rfl

theorem record_takeItems : (takeKeyword scope below active o .items value).record =
    { o with
      children := o.children.or (value.expectObject.toOption.map fun _ =>
        ("items", [{ shape := (readNested scope below active value).value }])) } := by
  simp only [takeKeyword, takeElement]
  cases value.expectObject with
  | error v => simp [Taken.refused, Except.toOption]
  | ok members => exact Outline.record_fill _ rfl

/-- Alternatives settle the kind if it is open, whether or not they are stored. -/
theorem record_takeOneOf : (takeKeyword scope below active o .oneOf value).record =
    { o with
      kind := o.kind.or (value.expectArray.toOption.map fun _ => .oneOf)
      children := if o.kind.isSome then o.children else
        o.children.or (value.expectArray.toOption.map fun items =>
          ("oneOf", (readAlternatives scope below active items).value)) } := by
  obtain ⟨kind?, -⟩ := o
  simp only [takeKeyword, takeAlternatives]
  cases kind? with
  | some existing => rfl
  | none =>
    cases value.expectArray with
    | error v => simp [Taken.refused, Except.toOption]
    | ok items => exact Outline.record_fill _ rfl

/-- An enumeration gives states or numbers. -/
theorem record_takeValues : (takeValues o value).record =
    { o with
      states := (takeValues o value).record.states
      numbers := (takeValues o value).record.numbers } := by
  unfold takeValues
  cases value.expectArray with
  | error v => rfl
  | ok items =>
    simp only
    split
    · exact Outline.record_fill (fun states => { o with states }) rfl ▸ rfl
    · exact Outline.record_fill (fun states => { o with states }) rfl ▸ rfl
    · split
      · rfl
      · cases NumberWords.read _ items with
        | error v => rfl
        | ok numbers => exact Outline.record_fill (fun numbers => { o with numbers }) rfl ▸ rfl
    · rfl

theorem record_takeAttribute {α : Type} (x : Except Violation α)
    (put : Attributes → α → Attributes) : (takeAttribute o x put).record =
      { o with attributes := (x.toOption.map (put o.attributes)).getD o.attributes } := by
  unfold takeAttribute
  cases x <;> rfl

end Records

theorem Keyword.name_injective {keyword keyword' : Keyword} (h : keyword.name = keyword'.name) :
    keyword = keyword' := by
  have hname : Keyword.ofName? keyword.name = some keyword' := Keyword.ofName?_eq_some_iff.mpr h
  rw [Keyword.ofName?_eq_some_iff.mpr rfl] at hname
  exact Option.some.inj hname

/-- Keywords of single values; each of them sets an attribute of its own. -/
def attributeKeywords : List Keyword :=
  [.size, .unit, .multipleOf, .minSize, .maxSize, .itemSize, .minItems, .maxItems, .base, .minimum,
    .maximum]

/-- The slots that a member under this key leaves as they are on the way from `o` to `r`. -/
structure Leaves (key : String) (o r : Outline) : Prop where
  kind : key ≠ Keyword.kind.name → key ≠ Keyword.oneOf.name → r.kind = o.kind
  format : key ≠ Keyword.format.name → r.format = o.format
  attributes : key ∉ attributeKeywords.map (·.name) → r.attributes = o.attributes
  states : key ≠ Keyword.values.name → r.states = o.states
  numbers : key ≠ Keyword.values.name → r.numbers = o.numbers
  children : key ≠ Keyword.properties.name → key ≠ Keyword.items.name →
    key ≠ Keyword.oneOf.name → r.children = o.children
  bitFields : key ≠ Keyword.bitmaps.name → r.bitFields = o.bitFields
  coefficients : key ≠ Keyword.coefficient.name → r.coefficients = o.coefficients
  reference : r.reference = o.reference

theorem Leaves.refl (key : String) (o : Outline) : Leaves key o o := by
  constructor <;> intros <;> rfl

theorem leaves_takeKeyword {keyword : Keyword} (h : keyword ≠ .reference) :
    Leaves keyword.name o (takeKeyword scope below active o keyword value).record := by
  cases keyword with
  | reference => exact absurd rfl h
  | kind => rw [record_takeKind]; constructor <;> simp
  | values => rw [takeKeyword, record_takeValues]; constructor <;> simp
  | properties => rw [record_takeProperties]; constructor <;> simp
  | items => rw [record_takeItems]; constructor <;> simp
  | bitmaps => rw [record_takeBitmaps]; constructor <;> simp
  | oneOf => rw [record_takeOneOf]; constructor <;> simp
  | format => rw [record_takeFormat]; constructor <;> simp
  | coefficient => rw [record_takeCoefficient]; constructor <;> simp
  | _ =>
    rw [takeKeyword, record_takeAttribute]
    constructor <;> simp [attributeKeywords]

section Members

variable {key : String}

theorem takeMember_name {keyword : Keyword} :
    takeMember scope below active o keyword.name value =
      takeKeyword scope below active o keyword value := by
  rw [takeMember, Keyword.ofName?_eq_some_iff.mpr rfl]

theorem not_follows_of_ne (h : key ≠ Keyword.reference.name) :
    below = none ∨ ∀ reference name target,
      ¬ Follows scope active o key value reference name target :=
  .inr fun _ _ _ hf => h (Keyword.ofName?_eq_some_iff.mp hf.1)

/-- An unknown member, or a reference that is not followed, is skipped. -/
theorem record_takeMember (h : below = none ∨ ∀ reference name target,
      ¬ Follows scope active o key value reference name target) :
    (takeMember scope below active o key value).record =
      match Keyword.ofName? key with
      | none | some .reference => o
      | some keyword => (takeKeyword scope below active o keyword value).record := by
  unfold takeMember
  cases hk : Keyword.ofName? key with
  | none => rfl
  | some keyword =>
    cases keyword with
    | reference =>
      cases value with
      | str reference =>
        rcases takeReference_cases scope below active o reference hk with
          ⟨v, hrefused⟩ | ⟨name, target, f, hfollows, hbelow⟩
        · exact congrArg Taken.record hrefused
        · rcases h with hnone | h
          · cases hbelow.symm.trans hnone
          · exact absurd hfollows (h reference name target)
      | _ => rfl
    | _ => rfl

theorem leaves_takeMember (h : below = none ∨ ∀ reference name target,
      ¬ Follows scope active o key value reference name target) :
    Leaves key o (takeMember scope below active o key value).record := by
  rw [record_takeMember h]
  split
  · exact .refl key o
  · exact .refl key o
  · next keyword hreference hk =>
    rw [Keyword.ofName?_eq_some_iff.mp hk]
    exact leaves_takeKeyword hreference

theorem bitFields_takeMember (href : key ≠ Keyword.reference.name) :
    (takeMember scope below active o key value).record.bitFields =
      changeAt Keyword.bitmaps.name key (fun fields => fields.or
        (value.expectArray.toOption.map fun items => (readFields scope below active items).value))
        o.bitFields := by
  by_cases hkey : key = Keyword.bitmaps.name
  · subst hkey
    rw [changeAt_self]
    exact congrArg Outline.bitFields record_takeBitmaps
  · rw [changeAt_of_ne hkey]
    exact (leaves_takeMember (not_follows_of_ne href)).bitFields hkey

end Members

end Descriptor
end DeviceTwin
