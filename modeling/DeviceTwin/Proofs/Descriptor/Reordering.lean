import DeviceTwin.Proofs.Descriptor.Levels
import DeviceTwin.Proofs.Reordering

/-!
Descriptors with members in another order. A descriptor itself is ordered, and so are the members of
the definitions that it refers to; everything else in it can be reordered.
-/
namespace DeviceTwin

/-- The second scope has the same definitions, reordered. -/
structure Scope.Reorders (scope scope' : Scope) : Prop where
  maxDepth_eq : scope'.maxDepth = scope.maxDepth
  lookup : ∀ name, Option.Rel (fun d d' => Reordered .descriptor d d' ∧ d.hasDistinctKeys)
    (scope.definitions.lookup name) (scope'.definitions.lookup name)

theorem Labels.read_eq_of_reordered {c : Construct} {value value' : Json}
    (h : Reordered c value value') (hkeys : value.hasDistinctKeys) :
    Labels.read value' = Labels.read value := by
  unfold Labels.read
  rcases h.expectObject_cases with ⟨v, hv, hv'⟩ | ⟨members, members', rfl, rfl⟩
  · rw [hv, hv']
  · simp only [Json.expectObject, bind, Except.bind,
      h.optionalString_eq (Json.hasDistinctKeys_obj.mp hkeys).1]

namespace Descriptor

/-- Whatever is read from a descriptor is read from it when it is reordered. -/
def IgnoreOrder (f f' : Application) : Prop :=
  ∀ active descriptor descriptor' o, Reordered .descriptor descriptor descriptor' →
    descriptor.hasDistinctKeys → (f active descriptor o).Matches (f' active descriptor' o)

variable {α : Type} {scope scope' : Scope} {below below' : Option Application}
  {active : List String} {o : Outline} {c : Construct} {descriptor descriptor' value value' : Json}
  {key reference : String} {keyword : Keyword} {items items' : List Json}
  {members : List (String × Json)}

section Entries

/-! Parts of descriptors without descriptors inside. -/

theorem position_eq_of_reordered (h : Reordered c value value') (hkeys : value.hasDistinctKeys) :
    BitPosition.read value' = BitPosition.read value := by
  unfold BitPosition.read
  rcases h.expectObject_cases with ⟨v, hv, hv'⟩ | ⟨members, members', rfl, rfl⟩
  · rw [hv, hv']
  · have hdistinct := (Json.hasDistinctKeys_obj.mp hkeys).1
    have hindex := h.lookup hdistinct "index"
    simp only [Json.expectObject, bind, Except.bind, h.optionalString_eq hdistinct]
    generalize members.lookup "index" = index?, members'.lookup "index" = index?' at hindex
    cases hindex with
    | none => rfl
    | some hindex => simp only [hindex.eq_of_shallow shallow_expectBinary64]

theorem record_takeEntry (entry : StateEntry) (key : String) (value : Json) :
    (takeEntry entry key value).record =
      { code := changeAt "edt" key (readOr (readCode value)) entry.code
        labels := changeAt "state" key (readOr (Labels.read value)) entry.labels
        numericValue := changeAt "numericValue" key (readOr (value.expectBinary64.map some))
          entry.numericValue
        readOnly := changeAt "readOnly" key (readOr value.expectBool) entry.readOnly } := by
  unfold takeEntry
  split
  · cases readCode value <;> rfl
  · cases Labels.read value <;> rfl
  · cases value.expectBinary64 <;> rfl
  · cases value.expectBool <;> rfl
  · simp_all [changeAt, Taken.ofExcept]

theorem orderFree_takeEntry : OrderFree takeEntry where
  findings_eq r s key value := by simp only [takeEntry, Taken.findings_ofExcept]
  refusal_eq r s key value := by
    unfold takeEntry
    split
    · exact Taken.refusal_ofExcept_map _ _ _
    · exact Taken.refusal_ofExcept_map _ _ _
    · exact Taken.refusal_ofExcept_map _ _ _
    · exact Taken.refusal_ofExcept_map _ _ _
    · rfl
  record_comm r key key' value value' h := by simp only [record_takeEntry, changeAt_comm h]

theorem takeEntry_alike (hkeys : (Json.obj members).hasDistinctKeys) :
    TakeAlike .entry members takeEntry takeEntry := by
  intro r key value value' hm h
  have hvalue := (Json.hasDistinctKeys_obj.mp hkeys).2 _ hm
  have hcode : Shallow readCode := ⟨fun _ _ => rfl, fun _ _ => rfl⟩
  simp only [takeEntry, h.eq_of_shallow hcode, h.eq_of_shallow shallow_expectBinary64,
    h.eq_of_shallow shallow_expectBool, Labels.read_eq_of_reordered h hvalue]
  exact .refl _

theorem readEntries_matches (h : ReorderedItems .entry items items')
    (hkeys : ∀ item ∈ items, item.hasDistinctKeys) :
    (readEntries items).Matches (readEntries items') := by
  refine h.readItems_matches 0 fun item item' hm hitem => ?_
  refine hitem.readRecord_matches orderFree_takeEntry (hkeys item hm) ?_
  rintro members rfl
  exact takeEntry_alike (hkeys _ hm)

theorem takeValues_matches (h : Reordered (.list .entry) value value')
    (hkeys : value.hasDistinctKeys) : (takeValues o value).Matches (takeValues o value') := by
  unfold takeValues
  rcases h.expectArray_cases with ⟨v, hv, hv'⟩ | ⟨items, items', rfl, rfl, hitems⟩
  · rw [hv, hv']
    exact .refl _
  · simp only [Json.expectArray]
    split
    · exact .store (readEntries_matches hitems (Json.hasDistinctKeys_arr.mp hkeys)) _
    · exact .store (readEntries_matches hitems (Json.hasDistinctKeys_arr.mp hkeys)) _
    · simp only [NumberWords.read, hitems.mapM_eq shallow_expectBinary64]
      exact .refl _
    · exact .refl _

theorem codes_eq_of_reordered (h : Reordered c value value') :
    readCodes value' = readCodes value := by
  unfold readCodes
  rcases h.expectArray_cases with ⟨v, hv, hv'⟩ | ⟨items, items', rfl, rfl, hitems⟩
  · rw [hv, hv']
  · simp only [Json.expectArray, bind, Except.bind, hitems.mapM_eq shallow_expectString]

end Entries

theorem orderFree_takePart (scope : Scope) (below : Option Application) (active : List String) :
    OrderFree (takePart scope below active) where
  findings_eq r s key value := by
    unfold takePart
    split
    · simp only [Taken.findings_ofExcept]
    · rfl
    · rfl
  refusal_eq r s key value := by
    unfold takePart
    split
    · exact Taken.refusal_ofExcept_map _ _ _
    · rfl
    · rfl
  record_comm r key key' value value' h := by
    have hrecord : ∀ (part : Member Shape) key value,
        (takePart scope below active part key value).record =
          { name := changeAt "name" key (readOr (value.expectString.map some)) part.name
            shape := changeAt "element" key (fun _ => (readNested scope below active value).value)
              part.shape } := by
      intro part key value
      unfold takePart
      split
      · cases value.expectString <;> rfl
      · rfl
      · simp_all [changeAt, Taken.refused]
    simp only [hrecord, changeAt_comm h]

theorem orderFree_takeField (scope : Scope) (below : Option Application) (active : List String) :
    OrderFree (takeField scope below active) where
  findings_eq r s key value := by
    unfold takeField
    split
    · simp only [Taken.findings_ofExcept]
    · simp only [Taken.findings_ofExcept]
    · simp only [Taken.findings_ofExcept]
    · rfl
    · rfl
  refusal_eq r s key value := by
    unfold takeField
    split
    · exact Taken.refusal_ofExcept_map _ _ _
    · exact Taken.refusal_ofExcept_map _ _ _
    · exact Taken.refusal_ofExcept_map _ _ _
    · rfl
    · rfl
  record_comm r key key' value value' h := by
    have hrecord : ∀ (field : BitField Shape) key value,
        (takeField scope below active field key value).record =
          { name := changeAt "name" key (readOr (value.expectString.map some)) field.name
            description := changeAt "descriptions" key (readOr (Labels.read value))
              field.description
            index := changeAt "position" key (readOr ((BitPosition.read value).map (·.index)))
              field.index
            mask := changeAt "position" key (readOr ((BitPosition.read value).map (·.mask)))
              field.mask
            value := changeAt "value" key (fun _ => (readNested scope below active value).value)
              field.value } := by
      intro field key value
      unfold takeField
      split
      · cases value.expectString <;> rfl
      · cases Labels.read value <;> rfl
      · cases BitPosition.read value <;> rfl
      · rfl
      · simp_all [changeAt, Taken.refused]
    simp only [hrecord, changeAt_comm h]

section Below

variable (hscope : scope.Reorders scope') (hbelow : Option.Rel IgnoreOrder below below')

theorem complete_matches {n n' : Noted Outline} (h : n.Matches n') :
    (complete n).Matches (complete n') := by
  unfold complete
  rw [h.value_eq]
  exact ⟨rfl, h.findings.append_right _⟩

include hscope hbelow

theorem readNested_matches (h : Reordered .descriptor descriptor descriptor')
    (hkeys : descriptor.hasDistinctKeys) :
    (readNested scope below active descriptor).Matches
      (readNested scope' below' active descriptor') := by
  cases hbelow with
  | none =>
    simp only [readNested, hscope.maxDepth_eq]
    exact .refl _
  | some hignore => exact complete_matches (hignore active descriptor descriptor' {} h hkeys)

theorem takePart_alike (hkeys : (Json.obj members).hasDistinctKeys) :
    TakeAlike .part members (takePart scope below active) (takePart scope' below' active) := by
  intro r key value value' hm h
  have hvalue := (Json.hasDistinctKeys_obj.mp hkeys).2 _ hm
  unfold takePart
  split
  · rw [h.eq_of_shallow shallow_expectString]
    exact .refl _
  · exact .store (readNested_matches hscope hbelow h hvalue) _
  · exact .refl _

theorem takeField_alike (hkeys : (Json.obj members).hasDistinctKeys) :
    TakeAlike .field members (takeField scope below active) (takeField scope' below' active) := by
  intro r key value value' hm h
  have hvalue := (Json.hasDistinctKeys_obj.mp hkeys).2 _ hm
  unfold takeField
  split
  · rw [h.eq_of_shallow shallow_expectString]
    exact .refl _
  · rw [Labels.read_eq_of_reordered h hvalue]
    exact .refl _
  · rw [position_eq_of_reordered h hvalue]
    exact .refl _
  · exact .store (readNested_matches hscope hbelow h hvalue) _
  · exact .refl _

theorem takeElement_matches (h : Reordered .descriptor value value')
    (hkeys : value.hasDistinctKeys) :
    (takeElement scope below active o value).Matches
      (takeElement scope' below' active o value') := by
  unfold takeElement
  rcases h.expectObject_cases with ⟨v, hv, hv'⟩ | ⟨members, members', rfl, rfl⟩
  · rw [hv, hv']
    exact .refl _
  · exact .store (readNested_matches hscope hbelow h hkeys) _

theorem takeAlternatives_matches (h : Reordered (.list .descriptor) value value')
    (hkeys : value.hasDistinctKeys) :
    (takeAlternatives scope below active o value).Matches
      (takeAlternatives scope' below' active o value') := by
  unfold takeAlternatives
  split
  · exact .refl _
  · rcases h.expectArray_cases with ⟨v, hv, hv'⟩ | ⟨items, items', rfl, rfl, hitems⟩
    · rw [hv, hv']
      exact .refl _
    · refine .store (hitems.readItems_matches 0 fun item item' hm hitem => ?_) _
      have hitemKeys := Json.hasDistinctKeys_arr.mp hkeys item hm
      exact (readNested_matches hscope hbelow hitem hitemKeys).map _

/-- The definition of a name is the same, reordered. -/
theorem takeReference_matches : (takeReference scope below active o reference).Matches
    (takeReference scope' below' active o reference) := by
  unfold takeReference
  cases definitionName? reference with
  | none => exact .refl _
  | some name =>
    have hlookup := hscope.lookup name
    simp only
    generalize scope.definitions.lookup name = target?,
      scope'.definitions.lookup name = target?' at hlookup
    cases hlookup with
    | none => exact .refl _
    | @some target target' htarget =>
      simp only
      split
      · exact .refl _
      · cases o.kind with
        | some existing => exact .refl _
        | none =>
          cases hbelow with
          | none =>
            simp only [hscope.maxDepth_eq]
            exact .refl _
          | some hignore =>
            have happlied := hignore (name :: active) target target' (o.noteReference reference)
              htarget.1 htarget.2
            exact ⟨happlied.value_eq, happlied.findings, rfl⟩

omit hscope hbelow in
theorem takeArray_matches {read read' : List Json → Noted α} {put : α → Except Violation Outline}
    (h : Reordered c value value')
    (hread : ∀ items items', value = .arr items → ReorderedItems c.item items items' →
      (read items).Matches (read' items')) :
    (takeArray o value read put).Matches (takeArray o value' read' put) := by
  unfold takeArray
  rcases h.expectArray_cases with ⟨v, hv, hv'⟩ | ⟨items, items', rfl, rfl, hitems⟩
  · rw [hv, hv']
    exact .refl _
  · exact .store (hread items items' rfl hitems) _

theorem takeKeyword_matches (h : Reordered (Construct.descriptor.member keyword.name) value value')
    (hkeys : value.hasDistinctKeys) :
    (takeKeyword scope below active o keyword value).Matches
      (takeKeyword scope' below' active o keyword value') := by
  cases keyword with
  | values => exact takeValues_matches h hkeys
  | properties =>
    refine takeArray_matches h ?_
    rintro items items' rfl hitems
    refine hitems.readItems_matches 0 fun item item' hm hitem => ?_
    have hitemKeys := Json.hasDistinctKeys_arr.mp hkeys item hm
    refine hitem.readRecord_matches (orderFree_takePart _ _ _) hitemKeys ?_
    rintro members rfl
    exact takePart_alike hscope hbelow hitemKeys
  | bitmaps =>
    refine takeArray_matches h ?_
    rintro items items' rfl hitems
    refine hitems.readItems_matches 0 fun item item' hm hitem => ?_
    have hitemKeys := Json.hasDistinctKeys_arr.mp hkeys item hm
    refine hitem.readRecord_matches (orderFree_takeField _ _ _) hitemKeys ?_
    rintro members rfl
    exact takeField_alike hscope hbelow hitemKeys
  | items => exact takeElement_matches hscope hbelow h hkeys
  | oneOf => exact takeAlternatives_matches hscope hbelow h hkeys
  | coefficient =>
    simp only [takeKeyword, codes_eq_of_reordered h]
    exact .refl _
  | reference =>
    simp only [takeKeyword, h.eq_of_shallow shallow_expectString]
    split
    · exact .refl _
    · exact takeReference_matches hscope hbelow
  | _ =>
    -- What is left looks at single values only.
    exact .of_shallow ⟨fun _ _ => rfl, fun _ _ => rfl⟩ h

theorem takeMember_alike (hkeys : (Json.obj members).hasDistinctKeys) :
    TakeAlike .descriptor members (takeMember scope below active)
      (takeMember scope' below' active) := by
  intro r key value value' hm h
  unfold takeMember
  cases hk : Keyword.ofName? key with
  | none => exact .refl _
  | some keyword =>
    obtain rfl := Keyword.ofName?_eq_some_iff.mp hk
    exact takeKeyword_matches hscope hbelow h ((Json.hasDistinctKeys_obj.mp hkeys).2 _ hm)

theorem applyOver_matches (h : Reordered .descriptor descriptor descriptor')
    (hkeys : descriptor.hasDistinctKeys) :
    (applyOver scope below active descriptor o).Matches
      (applyOver scope' below' active descriptor' o) := by
  unfold applyOver
  rcases h.expectObject_cases with ⟨v, hv, hv'⟩ | ⟨members, members', rfl, rfl⟩
  · rw [hv, hv']
    exact .refl _
  · exact h.readMembers_matches (fun hc => absurd hc (by decide))
      (Json.hasDistinctKeys_obj.mp hkeys).1 (takeMember_alike hscope hbelow hkeys)

end Below

/-- At every level, a descriptor reads the same as one that is reordered. -/
theorem levelBelow_ignoreOrder (hscope : scope.Reorders scope') (level : Nat) :
    Option.Rel IgnoreOrder (levelBelow scope level) (levelBelow scope' level) := by
  induction level with
  | zero => exact .none
  | succ level ih =>
    refine .some fun active descriptor descriptor' o h hkeys => ?_
    rw [apply_eq_applyOver, apply_eq_applyOver]
    exact applyOver_matches hscope ih h hkeys

theorem read_matches (hscope : scope.Reorders scope')
    (h : Reordered .descriptor descriptor descriptor') (hkeys : descriptor.hasDistinctKeys) :
    (read scope descriptor).Matches (read scope' descriptor') := by
  unfold read
  rw [hscope.maxDepth_eq, apply_eq_applyOver, apply_eq_applyOver]
  exact complete_matches (applyOver_matches hscope (levelBelow_ignoreOrder hscope _) h hkeys)

end Descriptor
end DeviceTwin
