import DeviceTwin.Descriptor.Reading
import DeviceTwin.Proofs.Json.Within
import DeviceTwin.Proofs.Limits
import DeviceTwin.Proofs.Shape.Adding

/-!
The descriptors inside of a member. Taking a member reads exactly these and looks at the level below
for nothing else, references apart; the limits on nesting and on circular references are reported
nowhere else.
-/
namespace DeviceTwin

theorem NumberWords.plain_read (format : NumberFormat) (items : List Json) :
    Plain (NumberWords.read format items) :=
  (Plain.mapM (fun _ => plain_expectBinary64) items).bind fun _ => plain_ok _

namespace Outline

theorem plain_fill {α : Type} (collection : String) (slot : Option α) (a : α) :
    Plain (fill collection slot a) := by
  cases slot
  · exact plain_ok _
  · exact plain_error rfl

theorem plain_fixKind (o : Outline) (kind : Tag) : Plain (o.fixKind kind) := by
  unfold fixKind
  split
  · exact plain_ok _
  · exact plain_error rfl

/-- A collection that is refused is there already. -/
theorem plain_addTo (o : Outline) (c : Collection) : Plain (c.addTo o) := by
  cases c <;> exact (plain_fill _ _ _).map

end Outline

namespace Descriptor

variable {scope scope' : Scope} {below below' : Option Application} {active active' : List String}
  {o : Outline} {keyword : Keyword} {key : String} {value : Json} {v : Violation}

theorem plain_integerOf (ofText : String → Int32) : Plain (integerOf ofText value) := by
  cases value <;> first | exact plain_ok _ | exact plain_error rfl

theorem plain_readPosition : Plain (BitPosition.read value) := by
  refine plain_expectObject.bind fun members => ?_
  have hmask : ∀ index : Int32, Plain (do
      let mask ← Json.optionalString members "bitMask"
      pure ({ index, mask } : BitPosition)) := fun index =>
    (plain_optionalString members "bitMask").bind fun _ => plain_ok _
  split
  · exact hmask 0
  · exact plain_expectBinary64.map.bind hmask

theorem plain_readKind : Plain (readKind value) := by
  refine plain_expectString.bind fun name => ?_
  split
  · exact plain_ok _
  · exact plain_error rfl

theorem plain_readFormat : Plain (readFormat value) := by
  refine plain_expectString.bind fun name => ?_
  split
  · exact plain_ok _
  · exact plain_error rfl

theorem plain_readCodes : Plain (readCodes value) :=
  plain_expectArray.bind fun items => Plain.mapM (fun _ => plain_expectString) items

theorem not_mem_violations_takeEntry {entry : StateEntry} (hv : v.isLimit = true) :
    v ∉ (takeEntry entry key value).violations := by
  apply not_mem_violations_ofExcept hv
  split
  · exact (plain_integerOf codeOfText).map
  · exact Labels.plain_read.map
  · exact plain_expectBinary64.map
  · exact plain_expectBool.map
  · exact plain_error rfl

theorem not_mem_violations_readEntries {items : List Json} (hv : v.isLimit = true) :
    v ∉ (readEntries items).violations := by
  intro h
  obtain ⟨item, _, h⟩ := mem_violations_readItems.mp h
  cases item with
  | obj members =>
    rw [readRecord, Json.expectObject, Noted.violations_map] at h
    obtain ⟨r, key, value, _, h⟩ := mem_violations_readMembers.mp h
    exact not_mem_violations_takeEntry hv h
  | _ => simp_all [readRecord, Json.expectObject, Violation.isLimit]

/-- The descriptors that taking a member reads inside of it. -/
def innerOf (o : Outline) : Keyword → Json → List Json
  | .items, .obj members => [.obj members]
  | .properties, .arr items => items.flatMap (·.valuesOf "element")
  | .bitmaps, .arr items => items.flatMap (·.valuesOf "value")
  | .oneOf, .arr items => if o.kind.isNone then items else []
  | _, _ => []

/-- The same by the member's name. -/
def inner (o : Outline) (key : String) (value : Json) : List Json :=
  match Keyword.ofName? key with
  | some keyword => innerOf o keyword value
  | none => []

theorem within_of_mem_valuesOf {items : List Json} {child : Json}
    (h : child ∈ items.flatMap (·.valuesOf key)) : child.Within (.arr items) := by
  obtain ⟨item, hitem, hchild⟩ := List.mem_flatMap.mp h
  have houter : item.Within (.arr items) := (Json.Part.item hitem).within
  cases item with
  | obj fields => exact (Json.Part.member (Json.mem_valuesOf.mp hchild)).within.trans houter
  | _ => simp [Json.valuesOf] at hchild

/-- The descriptors inside of a member stand inside of its value. -/
theorem within_of_mem_inner {child : Json} (h : child ∈ inner o key value) :
    child.Within value := by
  unfold inner at h
  split at h
  · unfold innerOf at h
    split at h
    · rw [List.mem_singleton.mp h]
      exact .refl _
    · exact within_of_mem_valuesOf h
    · exact within_of_mem_valuesOf h
    · split at h
      · exact (Json.Part.item h).within
      · simp at h
    · simp at h
  · simp at h

theorem takePart_congr {part : Member Shape}
    (h : key = "element" →
      readNested scope' below' active' value = readNested scope below active value) :
    takePart scope' below' active' part key value = takePart scope below active part key value := by
  unfold takePart
  split
  · rfl
  · rw [h rfl]
  · rfl

theorem takeField_congr {field : BitField Shape}
    (h : key = "value" →
      readNested scope' below' active' value = readNested scope below active value) :
    takeField scope' below' active' field key value =
      takeField scope below active field key value := by
  unfold takeField
  split
  · rfl
  · rfl
  · rfl
  · rw [h rfl]
  · rfl

section Collection

variable {ρ : Type} {take take' : ρ → String → Json → Taken ρ} {r : ρ} {index : Nat}
  {items : List Json}

/-- An array of records that read a descriptor under one of their keys. -/
theorem readCollection_congr
    (h : ∀ r k w, (k = key →
        readNested scope' below' active' w = readNested scope below active w) →
      take' r k w = take r k w)
    (hn : ∀ child ∈ items.flatMap (·.valuesOf key),
      readNested scope' below' active' child = readNested scope below active child) :
    readItems (readRecord take' r) index items = readItems (readRecord take r) index items := by
  apply readItems_congr
  intro item hi
  apply readRecord_congr
  rintro members rfl k w hm part
  apply h
  rintro rfl
  exact hn w (List.mem_flatMap.mpr ⟨_, hi, Json.mem_valuesOf.mpr hm⟩)

theorem mem_violations_readCollection (hv : v.isLimit = true)
    (h : ∀ r k w, v ∈ (take r k w).violations ↔
      k = key ∧ v ∈ (readNested scope below active w).violations) :
    v ∈ (readItems (readRecord take r) index items).violations ↔
      ∃ child ∈ items.flatMap (·.valuesOf key),
        v ∈ (readNested scope below active child).violations := by
  have hrecord : ∀ item, v ∈ (readRecord take r item).violations ↔
      ∃ child ∈ item.valuesOf key, v ∈ (readNested scope below active child).violations := by
    intro item
    cases item with
    | obj members =>
      rw [readRecord, Json.expectObject, Noted.violations_map, mem_violations_readMembers]
      constructor
      · rintro ⟨s, k, w, hs, hw⟩
        obtain ⟨rfl, hw⟩ := (h s k w).mp hw
        exact ⟨w, Json.mem_valuesOf.mpr hs.mem, hw⟩
      · rintro ⟨w, hm, hw⟩
        obtain ⟨s, hs⟩ := exists_visits_of_mem (Json.mem_valuesOf.mp hm)
        exact ⟨s, key, w, hs, (h s key w).mpr ⟨rfl, hw⟩⟩
    | _ =>
      simp only [readRecord, Json.expectObject, Noted.violations_refused, List.mem_singleton,
        Json.valuesOf, List.not_mem_nil, false_and, exists_false, iff_false]
      rintro rfl
      cases hv
  simp only [mem_violations_readItems, hrecord, List.mem_flatMap]
  constructor
  · rintro ⟨item, hi, child, hc, hm⟩
    exact ⟨child, ⟨item, hi, hc⟩, hm⟩
  · rintro ⟨child, ⟨item, hi, hc⟩, hm⟩
    exact ⟨item, hi, child, hc, hm⟩

end Collection

theorem takeKeyword_congr
    (hn : ∀ child ∈ innerOf o keyword value,
      readNested scope' below' active' child = readNested scope below active child)
    (hr : keyword = .reference → ∀ reference, value = .str reference →
      takeReference scope' below' active' o reference =
        takeReference scope below active o reference) :
    takeKeyword scope' below' active' o keyword value =
      takeKeyword scope below active o keyword value := by
  cases keyword with
  | properties =>
    cases value with
    | arr items =>
      have heq : readItems (readRecord (takePart scope' below' active') { shape := {} }) 0 items =
          readItems (readRecord (takePart scope below active) { shape := {} }) 0 items :=
        readCollection_congr (fun _ _ _ => takePart_congr) hn
      simp only [takeKeyword, takeArray, Json.expectArray, heq]
    | _ => simp only [takeKeyword, takeArray, Json.expectArray]
  | bitmaps =>
    cases value with
    | arr items =>
      have heq : readItems (readRecord (takeField scope' below' active') { value := {} }) 0 items =
          readItems (readRecord (takeField scope below active) { value := {} }) 0 items :=
        readCollection_congr (fun _ _ _ => takeField_congr) hn
      simp only [takeKeyword, takeArray, Json.expectArray, heq]
    | _ => simp only [takeKeyword, takeArray, Json.expectArray]
  | items =>
    cases value with
    | obj members =>
      have heq := hn (.obj members) List.mem_cons_self
      simp only [takeKeyword, takeElement, Json.expectObject, heq]
    | _ => simp only [takeKeyword, takeElement, Json.expectObject]
  | oneOf =>
    cases value with
    | arr items =>
      cases hk : o.kind with
      | none =>
        have heq : readAlternatives scope' below' active' items =
            readAlternatives scope below active items :=
          readItems_congr fun item hi => by rw [hn item (by simpa [innerOf, hk] using hi)]
        simp only [takeKeyword, takeAlternatives, Json.expectArray, hk, heq]
      | some existing => simp only [takeKeyword, takeAlternatives, hk]
    | _ => simp only [takeKeyword, takeAlternatives, Json.expectArray]
  | reference =>
    cases value with
    | str reference => exact hr rfl reference rfl
    | _ => simp only [takeKeyword, Json.expectString]
  | _ => simp only [takeKeyword]

/-- Taking a member looks at the level below for the descriptors inside of it and for the target
of a reference only. -/
theorem takeMember_congr
    (hn : ∀ child ∈ inner o key value,
      readNested scope' below' active' child = readNested scope below active child)
    (hr : Keyword.ofName? key = some .reference → ∀ reference, value = .str reference →
      takeReference scope' below' active' o reference =
        takeReference scope below active o reference) :
    takeMember scope' below' active' o key value = takeMember scope below active o key value := by
  unfold takeMember
  unfold inner at hn
  cases hk : Keyword.ofName? key with
  | none => rfl
  | some keyword =>
    rw [hk] at hn hr
    exact takeKeyword_congr hn fun he => hr (by rw [he])

theorem mem_violations_takePart {part : Member Shape} (hv : v.isLimit = true) :
    v ∈ (takePart scope below active part key value).violations ↔
      key = "element" ∧ v ∈ (readNested scope below active value).violations := by
  unfold takePart
  split
  · simp [not_mem_violations_ofExcept hv plain_expectString.map]
  · simp [Taken.mem_violations_store]
  · next hk => exact iff_of_false (not_mem_violations_refused hv rfl) fun h => hk h.1

theorem mem_violations_takeField {field : BitField Shape} (hv : v.isLimit = true) :
    v ∈ (takeField scope below active field key value).violations ↔
      key = "value" ∧ v ∈ (readNested scope below active value).violations := by
  unfold takeField
  split
  · simp [not_mem_violations_ofExcept hv plain_expectString.map]
  · simp [not_mem_violations_ofExcept hv Labels.plain_read.map]
  · simp [not_mem_violations_ofExcept hv plain_readPosition.map]
  · simp [Taken.mem_violations_store]
  · next hk => exact iff_of_false (not_mem_violations_refused hv rfl) fun h => hk h.1

theorem not_mem_violations_takeValues (hv : v.isLimit = true) :
    v ∉ (takeValues o value).violations := by
  have hstates {items : List Json} :
      v ∉ (Taken.store o (readEntries items) o.addStates).violations := fun h =>
    not_mem_violations_readEntries hv
      ((mem_violations_store_plain hv fun entries => o.plain_addTo (.states entries)).mp h)
  unfold takeValues
  split
  · next h => exact not_mem_violations_refused hv (plain_expectArray _ h)
  · split
    · exact hstates
    · exact hstates
    · split
      · exact not_mem_violations_refused hv rfl
      · exact not_mem_violations_ofExcept hv
          ((NumberWords.plain_read _ _).bind fun words => o.plain_addTo (.numbers words))
    · exact not_mem_violations_refused hv rfl

/-- Members without descriptors inside of them that are no references report no limits. -/
theorem not_mem_violations_takeKeyword (hv : v.isLimit = true)
    (hk : keyword ∉ [.properties, .items, .bitmaps, .oneOf, .reference]) :
    v ∉ (takeKeyword scope below active o keyword value).violations := by
  cases keyword <;> simp only [List.mem_cons, reduceCtorEq, or_true, or_false, not_true,
    not_false_eq_true, List.not_mem_nil] at hk
  case kind =>
    exact not_mem_violations_ofExcept hv (plain_readKind.bind o.plain_fixKind)
  case values => exact not_mem_violations_takeValues hv
  case format => exact not_mem_violations_ofExcept hv plain_readFormat.map
  case coefficient =>
    exact not_mem_violations_ofExcept hv
      (plain_readCodes.bind fun codes => o.plain_addTo (.coefficients codes))
  case size => exact not_mem_violations_ofExcept hv (plain_integerOf _).map
  case unit => exact not_mem_violations_ofExcept hv plain_expectString.map
  case base => exact not_mem_violations_ofExcept hv plain_expectString.map
  all_goals exact not_mem_violations_ofExcept hv plain_expectBinary64.map

/-- The violations of a limit found in a member come from the descriptors inside of it and from the
target of a reference. -/
theorem mem_violations_takeKeyword (hv : v.isLimit = true) :
    v ∈ (takeKeyword scope below active o keyword value).violations ↔
      (∃ child ∈ innerOf o keyword value,
        v ∈ (readNested scope below active child).violations) ∨
      (keyword = .reference ∧ ∃ reference, value = .str reference ∧
        v ∈ (takeReference scope below active o reference).violations) := by
  cases keyword with
  | properties =>
    cases value with
    | arr items =>
      simp only [takeKeyword, takeArray, Json.expectArray, innerOf, reduceCtorEq, false_and,
        or_false]
      exact (mem_violations_store_plain hv fun parts =>
          o.plain_addTo (.children "properties" parts)).trans
        (mem_violations_readCollection hv fun _ _ _ => mem_violations_takePart hv)
    | _ => exact iff_of_false (not_mem_violations_refused hv rfl) (by simp [innerOf])
  | bitmaps =>
    cases value with
    | arr items =>
      simp only [takeKeyword, takeArray, Json.expectArray, innerOf, reduceCtorEq, false_and,
        or_false]
      exact (mem_violations_store_plain hv fun fields => o.plain_addTo (.bitFields fields)).trans
        (mem_violations_readCollection hv fun _ _ _ => mem_violations_takeField hv)
    | _ => exact iff_of_false (not_mem_violations_refused hv rfl) (by simp [innerOf])
  | items =>
    cases value with
    | obj members =>
      simp only [takeKeyword, takeElement, Json.expectObject, innerOf, reduceCtorEq, false_and,
        or_false, List.mem_singleton, exists_eq_left]
      exact mem_violations_store_plain hv fun shape => o.plain_addTo (.children "items" [{ shape }])
    | _ => exact iff_of_false (not_mem_violations_refused hv rfl) (by simp [innerOf])
  | oneOf =>
    cases hk : o.kind with
    | some existing =>
      have hinner : innerOf o .oneOf value = [] := by cases value <;> simp [innerOf, hk]
      simp only [takeKeyword, takeAlternatives, hk, hinner]
      exact iff_of_false (not_mem_violations_refused hv rfl) (by simp)
    | none =>
      cases value with
      | arr items =>
        simp only [takeKeyword, takeAlternatives, Json.expectArray, innerOf, hk, Option.isNone_none,
          if_true, reduceCtorEq, false_and, or_false]
        refine (mem_violations_store_plain hv fun parts =>
          Outline.plain_addTo _ (.children "oneOf" parts)).trans ?_
        simp [readAlternatives, mem_violations_readItems]
      | _ =>
        simp only [takeKeyword, takeAlternatives, hk]
        exact iff_of_false (not_mem_violations_refused hv rfl) (by simp [innerOf])
  | reference =>
    cases value with
    | str reference => simp [takeKeyword, Json.expectString, innerOf]
    | _ => exact iff_of_false (not_mem_violations_refused hv rfl) (by simp [innerOf])
  | _ =>
    exact iff_of_false (not_mem_violations_takeKeyword hv (by simp)) (by simp [innerOf])

theorem mem_violations_takeMember (hv : v.isLimit = true) :
    v ∈ (takeMember scope below active o key value).violations ↔
      (∃ child ∈ inner o key value, v ∈ (readNested scope below active child).violations) ∨
      (Keyword.ofName? key = some .reference ∧ ∃ reference, value = .str reference ∧
        v ∈ (takeReference scope below active o reference).violations) := by
  unfold takeMember inner
  cases hk : Keyword.ofName? key with
  | none => exact iff_of_false (not_mem_violations_refused hv rfl) (by simp)
  | some keyword =>
    simp only [mem_violations_takeKeyword hv, Option.some.injEq]

end Descriptor
end DeviceTwin
