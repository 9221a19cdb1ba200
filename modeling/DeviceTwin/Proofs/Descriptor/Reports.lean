import DeviceTwin.Proofs.Descriptor.Levels
import DeviceTwin.Proofs.Reports

/-!
Findings inside of descriptors. What is found in a descriptor inside of a member, or in the
definition that a member refers to, is found in the member.
-/
namespace DeviceTwin.Descriptor

/-- `Inside o key value place child`: taking the member reads this descriptor, which stands at this
place in its value. -/
inductive Inside (o : Outline) : String → Json → Pointer → Json → Prop
  | element {fields} : Inside o "items" (.obj fields) [] (.obj fields)
  | part {items members child} {i : Nat} (hi : items[i]? = some (.obj members))
      (hm : ("element", child) ∈ members) :
    Inside o "properties" (.arr items) [toString i, "element"] child
  | field {items members child} {i : Nat} (hi : items[i]? = some (.obj members))
      (hm : ("value", child) ∈ members) :
    Inside o "bitmaps" (.arr items) [toString i, "value"] child
  | alternative {items child} {i : Nat} (hkind : o.kind = none) (hi : items[i]? = some child) :
    Inside o "oneOf" (.arr items) [toString i] child

variable {scope : Scope} {below : Option Application} {active : List String} {o : Outline}
  {key reference name : String} {value descriptor child target : Json} {place : Pointer}
  {members : List (String × Json)} {items : List Json} {v : Violation}

theorem exists_item_of_mem_valuesOf (h : child ∈ items.flatMap (·.valuesOf key)) :
    ∃ (i : Nat) (members : List (String × Json)), items[i]? = some (.obj members) ∧
      (key, child) ∈ members := by
  obtain ⟨item, hitem, hchild⟩ := List.mem_flatMap.mp h
  obtain ⟨i, hi⟩ := List.getElem?_of_mem hitem
  cases item with
  | obj members => exact ⟨i, members, hi, Json.mem_valuesOf.mp hchild⟩
  | _ => simp [Json.valuesOf] at hchild

theorem exists_inside_of_mem_inner (h : child ∈ inner o key value) :
    ∃ place, Inside o key value place child := by
  unfold inner at h
  split at h
  · next keyword hk =>
    obtain rfl := Keyword.ofName?_eq_some_iff.mp hk
    unfold innerOf at h
    split at h
    · obtain rfl := List.mem_singleton.mp h
      exact ⟨_, .element⟩
    · obtain ⟨i, members, hi, hm⟩ := exists_item_of_mem_valuesOf h
      exact ⟨_, .part hi hm⟩
    · obtain ⟨i, members, hi, hm⟩ := exists_item_of_mem_valuesOf h
      exact ⟨_, .field hi hm⟩
    · split at h
      · next hkind =>
        obtain ⟨i, hi⟩ := List.getElem?_of_mem h
        exact ⟨_, .alternative (Option.isNone_iff_eq_none.mp hkind) hi⟩
      · simp at h
    · simp at h
  · simp at h

theorem keeps_complete (n : Noted Outline) : Keeps [] n.findings (complete n).findings :=
  (keeps_refl _).subset (List.subset_append_left _ _)

theorem keeps_readAlternatives {i : Nat} (hi : items[i]? = some child) :
    Keeps [toString i] (readNested scope below active child).findings
      (readAlternatives scope below active items).findings :=
  keeps_readItems (fun item => (readNested scope below active item).map fun shape =>
    some ({ shape } : Member Shape)) hi

/-- What is found in a descriptor is found in the member that it is inside of. -/
theorem Inside.keeps (h : Inside o key value place child) :
    Keeps place (readNested scope below active child).findings
      (takeMember scope below active o key value).findings := by
  cases h with
  | element => exact keeps_store _ _
  | part hi hm =>
    obtain ⟨r, hv⟩ : ∃ r, Visits (takePart scope below active) { shape := {} } _ r _ _ :=
      exists_visits_of_mem hm
    exact keeps_readRecords hi hv
  | field hi hm =>
    obtain ⟨r, hv⟩ : ∃ r, Visits (takeField scope below active) { value := {} } _ r _ _ :=
      exists_visits_of_mem hm
    exact keeps_readRecords hi hv
  | alternative hkind hi =>
    have hk : Keyword.ofName? "oneOf" = some .oneOf := rfl
    simp only [takeMember, hk, takeKeyword, takeAlternatives, hkind, Json.expectArray]
    exact keeps_readAlternatives hi

theorem takeMember_reference :
    takeMember scope below active o "$ref" (.str reference) =
      takeReference scope below active o reference := rfl

/-- What is found in a definition is found in the reference to it. -/
theorem Follows.keeps {f : Application}
    (h : Follows scope active o key value reference name target) :
    Keeps [] (f (name :: active) target (o.noteReference reference)).findings
      (takeMember scope (some f) active o key value).findings := by
  obtain rfl := Keyword.ofName?_eq_some_iff.mp h.keyword
  obtain rfl := h.value_eq
  have htake := takeReference_some (f := f) h
  rw [show Keyword.reference.name = "$ref" from rfl, takeMember_reference, htake]
  exact keeps_refl _

end DeviceTwin.Descriptor
