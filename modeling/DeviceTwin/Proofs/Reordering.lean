import DeviceTwin.Proofs.Construct
import DeviceTwin.Proofs.Order

/-!
Members in another order. Two values are compared that differ in the order of the members of
unordered constructs, anywhere inside of them.
-/
namespace DeviceTwin

mutual

/-- `Reordered c value value'`: two values in the place of the construct, the second with the
members of any number of unordered constructs in another order. -/
inductive Reordered : Construct → Json → Json → Prop
  | same {c value} : Reordered c value value
  | items {c items items'} (h : ReorderedItems c.item items items') :
      Reordered c (.arr items) (.arr items')
  | members {c members members'} (h : ReorderedMembers c members members') :
      Reordered c (.obj members) (.obj members')
  /-- The members are changed in place before they are put into another order. -/
  | permuted {c members changed members'} (hc : c.isUnordered)
      (h : ReorderedMembers c members changed) (hperm : changed.Perm members') :
      Reordered c (.obj members) (.obj members')

inductive ReorderedItems : Construct → List Json → List Json → Prop
  | nil {c} : ReorderedItems c [] []
  | cons {c item item' rest rest'} (h : Reordered c item item')
      (hrest : ReorderedItems c rest rest') : ReorderedItems c (item :: rest) (item' :: rest')

inductive ReorderedMembers : Construct → List (String × Json) → List (String × Json) → Prop
  | nil {c} : ReorderedMembers c [] []
  | cons {c key value value' rest rest'} (h : Reordered (c.member key) value value')
      (hrest : ReorderedMembers c rest rest') :
      ReorderedMembers c ((key, value) :: rest) ((key, value') :: rest')

end

variable {α ρ : Type} {c : Construct} {value value' : Json} {items items' : List Json}
  {members members' changed : List (String × Json)} {key : String} {o : ρ}
  {take take' : ρ → String → Json → Taken ρ}

theorem ReorderedItems.refl (c : Construct) (items : List Json) : ReorderedItems c items items := by
  induction items with
  | nil => exact .nil
  | cons item rest ih => exact .cons .same ih

theorem ReorderedMembers.refl (c : Construct) (members : List (String × Json)) :
    ReorderedMembers c members members := by
  induction members with
  | nil => exact .nil
  | cons member rest ih => exact .cons .same ih

section Values

/-! What the second value is, if something is known of the first. -/

theorem Reordered.exists_of_obj (h : Reordered c (.obj members) value') :
    ∃ changed members', value' = .obj members' ∧ ReorderedMembers c members changed ∧
      changed.Perm members' ∧ (c.isUnordered = false → members' = changed) := by
  cases h with
  | same => exact ⟨members, members, rfl, .refl _ _, .refl _, fun _ => rfl⟩
  | members h => exact ⟨_, _, rfl, h, .refl _, fun _ => rfl⟩
  | permuted hc h hperm => exact ⟨_, _, rfl, h, hperm, fun hnot => by simp [hc] at hnot⟩

theorem Reordered.expectObject_cases (h : Reordered c value value') :
    (∃ v, value.expectObject = .error v ∧ value'.expectObject = .error v) ∨
      ∃ members members', value = .obj members ∧ value' = .obj members' := by
  cases h with
  | same =>
    cases value with
    | obj members => exact .inr ⟨members, members, rfl, rfl⟩
    | _ => exact .inl ⟨_, rfl, rfl⟩
  | items => exact .inl ⟨_, rfl, rfl⟩
  | members => exact .inr ⟨_, _, rfl, rfl⟩
  | permuted => exact .inr ⟨_, _, rfl, rfl⟩

theorem Reordered.expectArray_cases (h : Reordered c value value') :
    (∃ v, value.expectArray = .error v ∧ value'.expectArray = .error v) ∨
      ∃ items items', value = .arr items ∧ value' = .arr items' ∧
        ReorderedItems c.item items items' := by
  cases h with
  | same =>
    cases value with
    | arr items => exact .inr ⟨items, items, rfl, rfl, .refl _ _⟩
    | _ => exact .inl ⟨_, rfl, rfl⟩
  | items h => exact .inr ⟨_, _, rfl, rfl, h⟩
  | members => exact .inl ⟨_, rfl, rfl⟩
  | permuted => exact .inl ⟨_, rfl, rfl⟩

theorem Json.get?_of_error {v : Violation} (h : value.expectObject = .error v) (key : String) :
    value.get? key = none := by
  cases value <;> first | rfl | cases h

theorem Json.members?_of_error {v : Violation} (h : value.expectObject = .error v) :
    value.members? = none := by
  cases value <;> first | rfl | cases h

/-- What only tells arrays and objects from other values does not see the order of members. -/
def Shallow (f : Json → α) : Prop :=
  (∀ items items', f (.arr items') = f (.arr items)) ∧
    ∀ members members', f (.obj members') = f (.obj members)

theorem Reordered.eq_of_shallow {f : Json → α} (hf : Shallow f) (h : Reordered c value value') :
    f value' = f value := by
  cases h with
  | same => rfl
  | items => exact hf.1 _ _
  | members => exact hf.2 _ _
  | permuted => exact hf.2 _ _

theorem Taken.Matches.of_shallow {f : Json → Taken ρ} (hf : Shallow f)
    (h : Reordered c value value') : (f value).Matches (f value') := by
  rw [h.eq_of_shallow hf]
  exact .refl _

theorem shallow_expectString : Shallow Json.expectString := ⟨fun _ _ => rfl, fun _ _ => rfl⟩

theorem shallow_expectBool : Shallow Json.expectBool := ⟨fun _ _ => rfl, fun _ _ => rfl⟩

theorem shallow_expectBinary64 : Shallow Json.expectBinary64 := ⟨fun _ _ => rfl, fun _ _ => rfl⟩

theorem ReorderedItems.mapM_eq {f : Json → Except Violation α} (hf : Shallow f)
    (h : ReorderedItems c items items') : items'.mapM f = items.mapM f := by
  induction items generalizing items' with
  | nil =>
    cases h
    rfl
  | cons item rest ih =>
    cases h with
    | cons h hrest => rw [List.mapM_cons, List.mapM_cons, h.eq_of_shallow hf, ih hrest]

end Values

section Members

theorem ReorderedMembers.keys_eq (h : ReorderedMembers c members changed) :
    Json.keys changed = Json.keys members := by
  induction members generalizing changed with
  | nil =>
    cases h
    rfl
  | cons member rest ih =>
    cases h with
    | cons _ hrest => exact congrArg (List.cons _) (ih hrest)

theorem ReorderedMembers.lookup (h : ReorderedMembers c members changed) (key : String) :
    Option.Rel (Reordered (c.member key)) (members.lookup key) (changed.lookup key) := by
  induction members generalizing changed with
  | nil =>
    cases h
    exact .none
  | cons member rest ih =>
    cases h with
    | @cons _ other value value' _ rest' h hrest =>
      rw [List.lookup_cons, List.lookup_cons]
      cases hkey : key == other with
      | true =>
        obtain rfl := eq_of_beq hkey
        exact .some h
      | false => exact ih hrest

/-- Both values have related members under a key, or none has one. -/
theorem Reordered.lookup (h : Reordered c (.obj members) (.obj members'))
    (hkeys : (Json.keys members).Nodup) (key : String) :
    Option.Rel (Reordered (c.member key)) (members.lookup key) (members'.lookup key) := by
  obtain ⟨changed, _, ⟨⟩, hchanged, hperm, _⟩ := h.exists_of_obj
  rw [lookup_eq_of_perm (hchanged.keys_eq ▸ hkeys) hperm]
  exact hchanged.lookup key

/-- The same for values that need not be objects. -/
theorem Reordered.get? (h : Reordered c value value') (hkeys : value.hasDistinctKeys)
    (key : String) : Option.Rel (Reordered (c.member key)) (value.get? key) (value'.get? key) := by
  rcases h.expectObject_cases with ⟨v, hv, hv'⟩ | ⟨members, members', rfl, rfl⟩
  · rw [Json.get?_of_error hv, Json.get?_of_error hv']
    exact .none
  · exact h.lookup (Json.hasDistinctKeys_obj.mp hkeys).1 key

theorem Reordered.optionalString_eq (h : Reordered c (.obj members) (.obj members'))
    (hkeys : (Json.keys members).Nodup) (key : String) :
    Json.optionalString members' key = Json.optionalString members key := by
  have hlookup := h.lookup hkeys key
  unfold Json.optionalString
  generalize members.lookup key = value?, members'.lookup key = value?' at hlookup
  cases hlookup with
  | none => rfl
  | some hvalue => simp only [hvalue.eq_of_shallow shallow_expectString]

end Members

section Reading

/-- Two readers find the same in related items. -/
theorem ReorderedItems.readItems_matches {read read' : Json → Noted (Option α)}
    (h : ReorderedItems c items items') (index : Nat)
    (hread : ∀ item item', item ∈ items → Reordered c item item' →
      (read item).Matches (read' item')) :
    (readItems read index items).Matches (readItems read' index items') := by
  induction items generalizing items' index with
  | nil =>
    cases h
    exact .refl _
  | cons item rest ih =>
    cases h with
    | cons h hrest =>
      have hfirst := (hread item _ List.mem_cons_self h).within (toString index)
      have hlater := ih hrest (index + 1) fun item' _ hm =>
        hread item' _ (List.mem_cons_of_mem _ hm)
      refine ⟨?_, hfirst.findings.append hlater.findings⟩
      simp only [readItems, hfirst.value_eq, hlater.value_eq]

/-- Two readers that take related members alike. -/
def TakeAlike (c : Construct) (members : List (String × Json))
    (take take' : ρ → String → Json → Taken ρ) : Prop :=
  ∀ r key value value', (key, value) ∈ members → Reordered (c.member key) value value' →
    (take r key value).Matches (take' r key value')

theorem ReorderedMembers.readMembers_matches (h : ReorderedMembers c members changed)
    (htake : TakeAlike c members take take') :
    (readMembers take o members).Matches (readMembers take' o changed) := by
  induction members generalizing o changed with
  | nil =>
    cases h
    exact .refl _
  | cons member rest ih =>
    cases h with
    | @cons _ key value value' _ rest' h hrest =>
      have hfirst := htake o key value value' List.mem_cons_self h
      have hlater := ih (o := (take o key value).record) hrest fun r key value value' hm =>
        htake r key value value' (List.mem_cons_of_mem _ hm)
      simp only [readMembers, hfirst.record_eq]
      exact ⟨hlater.value_eq, (hfirst.findingsUnder key).append hlater.findings⟩

/-- Members are first changed in place, and then put into another order. -/
theorem Reordered.readMembers_matches (h : Reordered c (.obj members) (.obj members'))
    (hfree : c.isUnordered → OrderFree take') (hkeys : (Json.keys members).Nodup)
    (htake : TakeAlike c members take take') :
    (readMembers take o members).Matches (readMembers take' o members') := by
  obtain ⟨changed, _, ⟨⟩, hchanged, hperm, hsame⟩ := h.exists_of_obj
  have hfirst := hchanged.readMembers_matches (o := o) htake
  cases hc : c.isUnordered with
  | false =>
    rw [hsame hc]
    exact hfirst
  | true => exact hfirst.trans ((hfree hc).readMembers_matches (hchanged.keys_eq ▸ hkeys) hperm)

theorem Reordered.readRecord_matches (h : Reordered c value value') (hfree : OrderFree take')
    (hkeys : value.hasDistinctKeys)
    (htake : ∀ members, value = .obj members → TakeAlike c members take take') :
    (readRecord take o value).Matches (readRecord take' o value') := by
  unfold readRecord
  rcases h.expectObject_cases with ⟨v, hv, hv'⟩ | ⟨members, members', rfl, rfl⟩
  · rw [hv, hv']
    exact .refl _
  · exact (h.readMembers_matches (fun _ => hfree) (Json.hasDistinctKeys_obj.mp hkeys).1
      (htake members rfl)).map some

end Reading

end DeviceTwin
