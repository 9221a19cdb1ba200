import DeviceTwin.Proofs.Descriptor.Grammar
import DeviceTwin.Proofs.Descriptor.Slots
import DeviceTwin.Proofs.Descriptor.Values

/-!
Members of descriptors that are taken without findings. What this asks of a value is what the
grammar asks of it; the rest is asked of the outline that the members before have left.
-/
namespace DeviceTwin

variable {value : Json} {items : List Json}

theorem Labels.succeeds_read_iff : Succeeds (Labels.read value) ↔ value.IsLabels := by
  refine succeeds_bind_iff.trans (exists_congr fun members => ?_)
  rw [Json.expectObject_eq_ok_iff, ← Json.succeeds_optionalString_iff,
    ← Json.succeeds_optionalString_iff]
  refine and_congr_right' (succeeds_bind_of_iff fun ja _ => ?_)
  exact (succeeds_bind_of_iff fun en _ => iff_true_intro (succeeds_ok _)).trans
    (and_iff_left trivial)

namespace Descriptor

theorem succeeds_integerOf_iff {ofText : String → Int32} :
    Succeeds (integerOf ofText value) ↔ value.IsInteger := by
  cases value <;> simp [integerOf, Json.IsInteger, Json.IsText, Json.IsNumber]

theorem BitPosition.succeeds_read_iff : Succeeds (BitPosition.read value) ↔ value.IsPosition := by
  refine succeeds_bind_iff.trans (exists_congr fun members => ?_)
  rw [Json.expectObject_eq_ok_iff, ← Json.succeeds_optionalString_iff]
  refine and_congr_right' ?_
  have hmask (index : Int32) : Succeeds (do
        let mask ← Json.optionalString members "bitMask"
        pure ({ index, mask } : BitPosition)) ↔
      Succeeds (Json.optionalString members "bitMask") :=
    (succeeds_bind_of_iff fun mask _ => iff_true_intro (succeeds_ok _)).trans (and_iff_left trivial)
  cases members.lookup "index" with
  | none => exact (hmask 0).trans (and_iff_right nofun).symm
  | some index =>
    refine (succeeds_bind_of_iff fun index _ => hmask index).trans (and_congr_left' ?_)
    simp [Json.succeeds_expectBinary64_iff]

theorem succeeds_readCodes_iff : Succeeds (readCodes value) ↔
    ∃ items, value = .arr items ∧ ∀ item ∈ items, item.IsText := by
  refine succeeds_bind_iff.trans (exists_congr fun items => ?_)
  simp only [Json.expectArray_eq_ok_iff, succeeds_mapM_iff, Json.succeeds_expectString_iff]

theorem succeeds_readNumbers_iff {format : NumberFormat} :
    Succeeds (NumberWords.read format items) ↔ ∀ item ∈ items, item.IsNumber := by
  refine (succeeds_bind_of_iff fun _ _ => iff_true_intro (succeeds_ok _)).trans ?_
  simp only [succeeds_mapM_iff, Json.succeeds_expectBinary64_iff, and_true]

theorem isClean_readEntries_iff : (readEntries items).IsClean ↔ ∀ item ∈ items, item.IsEntry := by
  refine isClean_readRecords_iff fun item _ r key part _ => ?_
  unfold takeEntry
  rw [Taken.isClean_ofExcept_iff]
  split
  · simp [Json.Among, readCode, succeeds_integerOf_iff]
  · simp [Json.Among, Labels.succeeds_read_iff]
  · simp [Json.Among, Json.succeeds_expectBinary64_iff]
  · simp [Json.Among, Json.succeeds_expectBool_iff]
  · simp_all [Json.Among]

section Below

variable {scope : Scope} {below : Option Application} {active : List String}

/-- In each of these descriptors, nothing is found one level down if and only if it is in the
grammar. -/
def Judges (scope : Scope) (below : Option Application) (active : List String)
    (descriptors : List Json) : Prop :=
  ∀ child ∈ descriptors, ((readNested scope below active child).IsClean ↔ Conforms child)

/-- An array of records with descriptors under one key. -/
theorem isClean_readCollection_iff {ρ : Type} {take : ρ → String → Json → Taken ρ} {o : ρ}
    {own : String} {p : String → Json → Prop} {index : Nat}
    (h : ∀ r key part, (take r key part).IsClean ↔
      p key part ∧ (key = own → (readNested scope below active part).IsClean))
    (hbelow : Judges scope below active (items.flatMap (·.valuesOf own))) :
    (readItems (readRecord take o) index items).IsClean ↔ (∀ item ∈ items, item.IsRecord p) ∧
      ∀ child ∈ items.flatMap (·.valuesOf own), Conforms child := by
  have hrecords : (readItems (readRecord take o) index items).IsClean ↔ ∀ item ∈ items,
      item.IsRecord fun key part =>
        p key part ∧ (key = own → (readNested scope below active part).IsClean) :=
    isClean_readRecords_iff fun item _ r key part _ => h r key part
  rw [hrecords, forall₂_congr fun _ _ => Json.isRecord_and_iff]
  constructor
  · intro hall
    refine ⟨fun item hm => (hall item hm).1, fun child hchild => ?_⟩
    obtain ⟨item, hm, hpart⟩ := List.mem_flatMap.mp hchild
    exact (hbelow child hchild).mp ((hall item hm).2 child hpart)
  · rintro ⟨hitems, hchildren⟩ item hm
    refine ⟨hitems item hm, fun child hpart => ?_⟩
    have hchild := List.mem_flatMap.mpr ⟨item, hm, hpart⟩
    exact (hbelow child hchild).mpr (hchildren child hchild)

theorem isClean_takePart_iff {part : Member Shape} {key : String} :
    (takePart scope below active part key value).IsClean ↔
      Json.Among [("name", Json.IsText), ("element", fun _ => True)] key value ∧
        (key = "element" → (readNested scope below active value).IsClean) := by
  unfold takePart
  split
  · simp [Json.Among, Taken.isClean_ofExcept_iff, Json.succeeds_expectString_iff]
  · simp [Json.Among, Taken.isClean_store_iff]
  · simp_all [Json.Among, Taken.not_isClean_refused]

theorem isClean_takeField_iff {field : BitField Shape} {key : String} :
    (takeField scope below active field key value).IsClean ↔
      Json.Among [("name", Json.IsText), ("descriptions", Json.IsLabels),
          ("position", Json.IsPosition), ("value", fun _ => True)] key value ∧
        (key = "value" → (readNested scope below active value).IsClean) := by
  unfold takeField
  split
  · simp [Json.Among, Taken.isClean_ofExcept_iff, Json.succeeds_expectString_iff]
  · simp [Json.Among, Taken.isClean_ofExcept_iff, Labels.succeeds_read_iff]
  · simp [Json.Among, Taken.isClean_ofExcept_iff, BitPosition.succeeds_read_iff]
  · simp [Json.Among, Taken.isClean_store_iff]
  · simp_all [Json.Among, Taken.not_isClean_refused]

variable {o : Outline} {keyword : Keyword}

theorem succeeds_fill_iff {α : Type} {collection : String} {slot : Option α} {a : α} :
    Succeeds (Outline.fill collection slot a) ↔ slot = none := by
  cases slot with
  | none => exact iff_of_true (succeeds_ok _) rfl
  | some existing => exact iff_of_false (not_succeeds_error _) nofun

theorem succeeds_fixKind_iff {tag : Tag} : Succeeds (o.fixKind tag) ↔ o.kind = none := by
  unfold Outline.fixKind
  cases o.kind with
  | none => exact iff_of_true (succeeds_ok _) rfl
  | some existing => exact iff_of_false (not_succeeds_error _) nofun

theorem isClean_takeArray_iff {α : Type} {read : List Json → Noted α}
    {put : α → Except Violation Outline} : (takeArray o value read put).IsClean ↔
      ∃ items, value = .arr items ∧ (read items).IsClean ∧ Succeeds (put (read items).value) := by
  unfold takeArray
  cases value with
  | arr items =>
    refine Taken.isClean_store_iff.trans ⟨fun h => ⟨items, rfl, h⟩, ?_⟩
    rintro ⟨_, ⟨⟩, h⟩
    exact h
  | _ =>
    refine iff_of_false (Taken.not_isClean_refused _ _) ?_
    rintro ⟨_, h, -⟩
    cases h

/-! When a member is taken without findings: what has to be known of its value and of the outline
where it is taken. -/

theorem isClean_takeKind_iff : (takeKeyword scope below active o .kind value).IsClean ↔
    (∃ tag ∈ Tag.named, value = .str tag.name) ∧ o.kind = none := by
  refine Taken.isClean_ofExcept_iff.trans ?_
  simp only [succeeds_bind_iff, readKind_eq_ok_iff, succeeds_fixKind_iff, exists_and_right]

theorem isClean_takeFormat_iff : (takeKeyword scope below active o .format value).IsClean ↔
    ∃ format : NumberFormat, value = .str format.name := by
  refine Taken.isClean_ofExcept_iff.trans (succeeds_map_iff.trans ?_)
  exact exists_congr fun format => readFormat_eq_ok_iff

theorem isClean_takeCoefficient_iff :
    (takeKeyword scope below active o .coefficient value).IsClean ↔
      (∃ items, value = .arr items ∧ ∀ item ∈ items, item.IsText) ∧ o.coefficients = none := by
  rw [← succeeds_readCodes_iff]
  refine Taken.isClean_ofExcept_iff.trans (succeeds_bind_of_iff fun codes _ => ?_)
  exact succeeds_map_iff.trans succeeds_fill_iff

theorem isClean_takeValues_iff : (takeValues o value).IsClean ↔ ∃ items, value = .arr items ∧
    ((o.kind = some .state ∨ o.kind = some .numericValue) ∧ (∀ item ∈ items, item.IsEntry) ∧
        o.states = none ∨
      o.kind = some .number ∧ (∃ format, o.format = some format) ∧
        (∀ item ∈ items, item.IsNumber) ∧ o.numbers = none) := by
  have hstates (items) : (Taken.store o (readEntries items) o.addStates).IsClean ↔
      (∀ item ∈ items, item.IsEntry) ∧ o.states = none := by
    rw [Taken.isClean_store_iff, isClean_readEntries_iff, Outline.addStates, succeeds_map_iff,
      succeeds_fill_iff]
  have hnumbers (format) (items) :
      (Taken.ofExcept o ((NumberWords.read format items).bind o.addNumbers)).IsClean ↔
        (∀ item ∈ items, item.IsNumber) ∧ o.numbers = none := by
    rw [Taken.isClean_ofExcept_iff, ← succeeds_readNumbers_iff]
    exact succeeds_bind_of_iff fun numbers _ => succeeds_map_iff.trans succeeds_fill_iff
  unfold takeValues
  cases value with
  | arr items =>
    simp only [Json.expectArray, Json.arr.injEq, exists_eq_left']
    split
    · next hkind => simp [hstates, hkind]
    · next hkind => simp [hstates, hkind]
    · next hkind =>
      cases hformat : o.format with
      | none => simp [hkind, Taken.not_isClean_refused]
      | some format => simp [hkind, hnumbers]
    · next hstate hnumeric hnumber =>
      simp only [Taken.not_isClean_refused, false_iff]
      rintro (⟨h | h, -⟩ | ⟨h, -⟩)
      · exact hstate h
      · exact hnumeric h
      · exact hnumber h
  | _ =>
    refine iff_of_false (Taken.not_isClean_refused _ _) ?_
    rintro ⟨_, h, -⟩
    cases h

theorem isClean_takeProperties_iff
    (hbelow : Judges scope below active (innerOf {} .properties value)) :
    (takeKeyword scope below active o .properties value).IsClean ↔
      ∃ items, value = .arr items ∧ ((∀ item ∈ items, item.IsPart) ∧
        ∀ element ∈ items.flatMap (·.valuesOf "element"), Conforms element) ∧
          o.children = none := by
  rw [takeKeyword_properties, isClean_takeArray_iff]
  refine exists_congr fun items => and_congr_right ?_
  rintro rfl
  refine and_congr ?_ (succeeds_map_iff.trans succeeds_fill_iff)
  exact isClean_readCollection_iff (fun _ _ _ => isClean_takePart_iff) hbelow

theorem isClean_takeBitmaps_iff
    (hbelow : Judges scope below active (innerOf {} .bitmaps value)) :
    (takeKeyword scope below active o .bitmaps value).IsClean ↔
      ∃ items, value = .arr items ∧ ((∀ item ∈ items, item.IsField) ∧
        ∀ part ∈ items.flatMap (·.valuesOf "value"), Conforms part) ∧ o.bitFields = none := by
  rw [takeKeyword_bitmaps, isClean_takeArray_iff]
  refine exists_congr fun items => and_congr_right ?_
  rintro rfl
  refine and_congr ?_ (succeeds_map_iff.trans succeeds_fill_iff)
  exact isClean_readCollection_iff (fun _ _ _ => isClean_takeField_iff) hbelow

theorem isClean_takeItems_iff
    (hbelow : Judges scope below active (innerOf {} .items value)) :
    (takeKeyword scope below active o .items value).IsClean ↔
      Conforms value ∧ o.children = none := by
  cases value with
  | obj members =>
    simp only [takeKeyword, takeElement, Json.expectObject, Taken.isClean_store_iff,
      Outline.addChildren, succeeds_map_iff, succeeds_fill_iff]
    exact and_congr_left' (hbelow _ List.mem_cons_self)
  | _ => exact iff_of_false (Taken.not_isClean_refused _ _) fun h => by cases h.1

theorem isClean_takeOneOf_iff
    (hbelow : Judges scope below active (innerOf {} .oneOf value)) :
    (takeKeyword scope below active o .oneOf value).IsClean ↔
      o.kind = none ∧ (∃ items, value = .arr items ∧ ∀ item ∈ items, Conforms item) ∧
        o.children = none := by
  simp only [takeKeyword, takeAlternatives]
  cases o.kind with
  | some existing => simp [Taken.not_isClean_refused]
  | none =>
    cases value with
    | arr items =>
      simp only [Json.expectArray, Taken.isClean_store_iff, Outline.addChildren, succeeds_map_iff,
        succeeds_fill_iff, true_and, Json.arr.injEq, exists_eq_left']
      refine and_congr_left' (isClean_readItems_iff.trans (forall₂_congr fun item hm => ?_))
      exact hbelow item hm
    | _ =>
      refine iff_of_false (Taken.not_isClean_refused _ _) ?_
      rintro ⟨-, ⟨_, h, -⟩, -⟩
      cases h

theorem isClean_takeText_iff (hkeyword : keyword ∈ [.unit, .base]) :
    (takeKeyword scope below active o keyword value).IsClean ↔ value.IsText := by
  simp only [List.mem_cons, List.not_mem_nil, or_false] at hkeyword
  rw [← Json.succeeds_expectString_iff]
  rcases hkeyword with rfl | rfl <;>
    exact Taken.isClean_ofExcept_iff.trans succeeds_map_iff

theorem isClean_takeNumber_iff (hkeyword : keyword ∈ [.multipleOf, .minSize, .maxSize, .itemSize,
      .minItems, .maxItems, .minimum, .maximum]) :
    (takeKeyword scope below active o keyword value).IsClean ↔ value.IsNumber := by
  simp only [List.mem_cons, List.not_mem_nil, or_false] at hkeyword
  rw [← Json.succeeds_expectBinary64_iff]
  rcases hkeyword with rfl | rfl | rfl | rfl | rfl | rfl | rfl | rfl <;>
    exact Taken.isClean_ofExcept_iff.trans succeeds_map_iff

theorem isClean_takeSize_iff :
    (takeKeyword scope below active o .size value).IsClean ↔ value.IsInteger :=
  Taken.isClean_ofExcept_iff.trans (succeeds_map_iff.trans succeeds_integerOf_iff)

end Below

end Descriptor
end DeviceTwin
