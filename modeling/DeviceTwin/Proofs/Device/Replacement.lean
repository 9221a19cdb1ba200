import DeviceTwin.Proofs.Device.Traversal
import DeviceTwin.Proofs.Json.Replace

/-!
Devices with another value for one property. Whatever the value is, the readings of everything
around it stay as they are.
-/
namespace DeviceTwin.Device

/-- `PropertyAt device place property`: the device, or a variant of it, has this property at this
place. -/
inductive PropertyAt : Json → Pointer → Json → Prop
  | own {members properties code property}
      (hm : ("elProperties", .obj properties) ∈ members) (hp : (code, property) ∈ properties) :
      PropertyAt (.obj members) ["elProperties", code] property
  | variant {members variants variant place property} {i : Nat}
      (hm : ("oneOf", .arr variants) ∈ members) (hv : variants[i]? = some variant)
      (h : PropertyAt variant place property) :
      PropertyAt (.obj members) ("oneOf" :: toString i :: place) property

theorem PropertyAt.resolve? {device property : Json} {place : Pointer}
    (hkeys : device.hasDistinctKeys) (h : PropertyAt device place property) :
    Pointer.resolve? device place = some property := by
  induction h with
  | own hm hp =>
    rw [Json.hasDistinctKeys_obj] at hkeys
    have hkeys' := Json.hasDistinctKeys_obj.mp (hkeys.2 _ hm)
    simp [Pointer.resolve?, lookup_of_mem hkeys.1 hm, lookup_of_mem hkeys'.1 hp]
  | @variant _ variants variant _ _ i hm hv _ ih =>
    rw [Json.hasDistinctKeys_obj] at hkeys
    have hvariant := Json.hasDistinctKeys_arr.mp (hkeys.2 _ hm) variant (List.mem_of_getElem? hv)
    rw [Pointer.resolve?, Pointer.child?_obj, lookup_of_mem hkeys.1 hm, Option.bind_some,
      Pointer.resolve?, Pointer.child?_arr, hv, Option.bind_some, ih hvariant]

variable {scope : Scope} {options : Options} {key code : String} {value property device : Json}
  {before after members properties : List (String × Json)} {variants : List Json}
  {position i : Nat} {place : Pointer}

/-- A property as the event that it contributes. -/
def produce (scope : Scope) (options : Options) (property : Json) : Noted (List Event) :=
  (Property.read scope options property).map fun contents => [.produced contents]

theorem readProperties_cons : readProperties scope options ((code, property) :: properties) =
    (produce scope options property).within code ++ readProperties scope options properties := rfl

theorem readProperties_append : readProperties scope options (before ++ after) =
    readProperties scope options before ++ readProperties scope options after := by
  induction before with
  | nil => rfl
  | cons entry rest ih =>
    rw [List.cons_append, readProperties_cons, ih, readProperties_cons, Noted.append_assoc]

theorem notesOfMembers_append : notesOfMembers scope options (before ++ after) =
    notesOfMembers scope options before ++ notesOfMembers scope options after := by
  induction before with
  | nil => rfl
  | cons member rest ih =>
    rw [List.cons_append, notesOfMembers, ih, notesOfMembers, Noted.append_assoc]

theorem readEach_cons_eq {α : Type} {read : Json → Noted (List α)} (variant : Json) :
    readEach read position (variant :: variants) =
      (read variant).within (toString position) ++ readEach read (position + 1) variants := rfl

theorem readEach_append {α : Type} {read : Json → Noted (List α)} (before after : List Json) :
    readEach read position (before ++ after) =
      readEach read position before ++ readEach read (position + before.length) after := by
  induction before generalizing position with
  | nil => rfl
  | cons variant rest ih =>
    have hposition : position + (rest.length + 1) = position + 1 + rest.length := by omega
    rw [List.cons_append, readEach_cons_eq, ih, readEach_cons_eq, List.length_cons, hposition,
      Noted.append_assoc]

section Avoids

/-! What is found in a part stands under the key or the index of the part. -/

theorem avoids_readProperties (h : key ∉ Json.keys properties) :
    (readProperties scope options properties).Avoids (key :: place) := by
  refine pointers_readProperties (P := fun pointer => ¬ key :: place <+: pointer)
    fun code property hm f _ hlies => ?_
  rw [List.cons_prefix_cons] at hlies
  exact h (hlies.1 ▸ mem_keys hm)

theorem avoids_notesOfMember {key' : String} (h : key ≠ key') :
    (notesOfMember scope options key' value).Avoids (key :: place) :=
  Noted.avoids_within_of_ne (a := (⟨([] : List Event), _⟩)) h

theorem avoids_notesOfMembers (h : key ∉ Json.keys members) :
    (notesOfMembers scope options members).Avoids (key :: place) := by
  induction members with
  | nil => exact Noted.avoids_nil _
  | cons member rest ih =>
    rw [Json.keys, List.map_cons, List.mem_cons, not_or] at h
    exact (avoids_notesOfMember h.1).append (ih h.2)

theorem avoids_readEach {α : Type} {read : Json → Noted (List α)}
    (h : i < position ∨ position + variants.length ≤ i) :
    (readEach read position variants).Avoids (toString i :: place) := by
  induction variants generalizing position with
  | nil => exact Noted.avoids_nil _
  | cons variant rest ih =>
    rw [List.length_cons] at h
    have hne : toString i ≠ toString position := fun heq => by
      have := Pointer.index_inj heq
      omega
    rw [readEach_cons]
    exact (Noted.avoids_within_of_ne hne).append (ih (by omega))

end Avoids

/-- The class of a device is not given by its properties or variants. -/
theorem classNameOf_other (h : key ≠ "className") :
    classNameOf (before ++ (key, value) :: after) = classNameOf (before ++ after) := by
  rw [classNameOf, List.foldl_append, List.foldl_cons, classNameAfter_of_ne h,
    ← List.foldl_append, classNameOf]

/-- A member that is read on its own is surrounded by the other members and the end. -/
theorem surrounds_member {part : Json → Noted (List Event)} {f : Json → Json}
    (hclass : key ≠ "className") (hbefore : key ∉ Json.keys before)
    (hafter : key ∉ Json.keys after)
    (h : Surrounds (key :: place) (fun value => notesOfMember scope options key (f value)) part) :
    Surrounds (key :: place)
      (fun value => read scope options (.obj (before ++ (key, f value) :: after))) part := by
  have hend : (⟨[.ended (classNameOf (before ++ after))], []⟩ : Noted (List Event)).Avoids
      (key :: place) := Noted.avoids_nil _
  have hfirst : (notesOfMembers scope options before).Avoids (key :: place) :=
    avoids_notesOfMembers hbefore
  have hlast : (notesOfMembers scope options after).Avoids (key :: place) :=
    avoids_notesOfMembers hafter
  have hparts := h.between hfirst (hlast.append hend)
  have heq : ∀ value, read scope options (.obj (before ++ (key, f value) :: after)) =
      notesOfMembers scope options before ++ notesOfMember scope options key (f value) ++
        (notesOfMembers scope options after ++ ⟨[.ended (classNameOf (before ++ after))], []⟩) := by
    intro value
    rw [read_obj, classNameOf_other hclass, notesOfMembers_append, notesOfMembers]
    simp only [Noted.append_assoc]
  simpa only [heq] using hparts

/-- The reading of a device is that of a property, between readings of the other parts. -/
theorem surrounds_read (hkeys : device.hasDistinctKeys) (h : PropertyAt device place property) :
    Surrounds place (fun value => read scope options (Pointer.replace value place device))
      (produce scope options) := by
  induction h with
  | @own members properties code property hm hp =>
    rw [Json.hasDistinctKeys_obj] at hkeys
    have hkeys' := Json.hasDistinctKeys_obj.mp (hkeys.2 _ hm)
    obtain ⟨before, after, rfl, hbefore, hafter⟩ := exists_split hkeys.1 hm
    obtain ⟨before', after', rfl, hbefore', hafter'⟩ := exists_split hkeys'.1 hp
    -- With the parts named apart, the new value stands where the property stood.
    simp only [Pointer.replace, Pointer.mapChild_obj_split hbefore hafter,
      Pointer.mapChild_obj_split hbefore' hafter']
    apply surrounds_member (by decide) hbefore hafter
    simp only [notesOfMember_properties, readProperties_append, readProperties_cons,
      ← Noted.append_assoc]
    exact (((Surrounds.refl _).within code).between (avoids_readProperties hbefore')
      (avoids_readProperties hafter')).within "elProperties"
  | @variant members variants variant place property i hm hv _ ih =>
    rw [Json.hasDistinctKeys_obj] at hkeys
    have hkeys' := Json.hasDistinctKeys_arr.mp (hkeys.2 _ hm)
    obtain ⟨before, after, rfl, hbefore, hafter⟩ := exists_split hkeys.1 hm
    obtain ⟨before', after', rfl, rfl⟩ := Pointer.exists_split_at hv
    simp only [Pointer.replace, Pointer.mapChild_obj_split hbefore hafter,
      Pointer.mapChild_arr_split]
    apply surrounds_member (by decide) hbefore hafter
    have hvariant := ih (hkeys' variant (by simp))
    simp only [notesOfMember_variants, readEach_append, readEach_cons_eq, Nat.zero_add,
      ← Noted.append_assoc]
    exact ((hvariant.within (toString before'.length)).between (avoids_readEach (by omega))
      (avoids_readEach (by omega))).within "oneOf"

end DeviceTwin.Device
