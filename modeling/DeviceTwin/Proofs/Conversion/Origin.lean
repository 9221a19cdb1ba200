import DeviceTwin.Proofs.Conversion.Devices
import DeviceTwin.Proofs.Descriptor.Parts
import DeviceTwin.Proofs.Device.Closing

/-!
Where contents come from. Every content of an interface is one of those that are made for a shape,
and the shape is that of a descriptor, or an alternative of it.
-/
namespace DeviceTwin

/-- The shapes that contents are made for: those of descriptors, their alternatives, and the empty
shape of a property without data. -/
inductive Shape.Given (scope : Scope) : Shape → Prop
  | empty : Shape.Given scope {}
  | read (descriptor : Json) : Shape.Given scope (Descriptor.read scope descriptor).value
  | alternative {shape alternatives alternative} (h : Shape.Given scope shape)
      (hkind : shape.kind = .oneOf alternatives) (hmem : alternative ∈ alternatives) :
      Shape.Given scope alternative

/-- The content is one of those that are made for a given shape. -/
def Content.IsMade (scope : Scope) (options : Options) (content : Content) : Prop :=
  ∃ index access labels shape contents, Shape.Given scope shape ∧
    make options index access labels shape = .ok contents ∧ content ∈ contents

/-- The interface is made of contents that are made for given shapes. -/
def Interface.IsMade (scope : Scope) (options : Options) (interface : Interface) : Prop :=
  ∃ ja en contents, interface = make options ja en contents ∧
    ∀ content ∈ contents, content.IsMade scope options

variable {scope : Scope} {options : Options} {content : Content} {shape : Shape} {key : String}
  {value : Json}

/-- A given shape is no higher than there are levels. -/
theorem Shape.Given.height_le (h : Shape.Given scope shape) :
    shape.height ≤ scope.maxDepth + 1 := by
  induction h with
  | empty => exact Nat.zero_le _
  | read descriptor => exact (Descriptor.unsetAt_read scope descriptor).height_le
  | alternative _ hkind hmem ih =>
    have hpart := Shape.height_le_iff.mp ih _ (by rw [hkind]; exact hmem)
    omega

namespace Property

theorem isMade_of_contentsOf {property : Property} {index : Nat} (hshape : Shape.Given scope shape)
    (h : content ∈ (contentsOf options property index shape).value) :
    content.IsMade scope options := by
  unfold contentsOf at h
  split at h
  · next contents hmake => exact ⟨_, _, _, _, contents, hshape, hmake, h⟩
  · cases h

theorem isMade_of_alternativeContents {property : Property} {position : Nat} {shapes : List Shape}
    (hshapes : ∀ shape ∈ shapes, Shape.Given scope shape)
    (h : content ∈ (alternativeContents options property position shapes).value) :
    content.IsMade scope options := by
  induction shapes generalizing position with
  | nil => cases h
  | cons shape rest ih =>
    rcases List.mem_append.mp h with h | h
    · exact isMade_of_contentsOf (hshapes shape List.mem_cons_self) h
    · exact ih (fun shape hm => hshapes shape (List.mem_cons_of_mem _ hm)) h

theorem isMade_of_contents {property : Property} (hshape : Shape.Given scope property.shape)
    (h : content ∈ (property.contents options).value) : content.IsMade scope options := by
  unfold contents at h
  split at h
  · next alternatives hkind =>
    exact isMade_of_alternativeContents (fun shape hm => .alternative hshape hkind hm) h
  · exact isMade_of_contentsOf hshape h

/-- The shape of the draft is given, and the contents of its variants are made. -/
structure Draft.IsMade (scope : Scope) (options : Options) (draft : Draft) : Prop where
  shape : Shape.Given scope draft.property.shape
  contents : ∀ content ∈ draft.contents, content.IsMade scope options

theorem Draft.isMade_takeMember {draft : Draft} (h : draft.IsMade scope options) :
    (draft.takeMember scope key value).record.IsMade scope options := by
  unfold Draft.takeMember
  split
  · exact Taken.record_ofExcept h (.map fun _ => ⟨h.shape, h.contents⟩)
  · unfold Draft.takeAccess
    split
    · exact h
    · exact ⟨h.shape, h.contents⟩
  · unfold Draft.takeData
    split
    · exact h
    · exact ⟨.read value, h.contents⟩
  · exact Taken.record_ofExcept h (.map fun _ => h)
  · exact Taken.record_ofExcept h (.map fun _ => h)
  · exact Taken.record_ofExcept h (.map fun _ => h)
  · exact h

theorem Draft.isMade_finish {draft : Noted Draft} (h : draft.value.IsMade scope options) :
    ∀ content ∈ (Draft.finish options draft).value, content.IsMade scope options := by
  intro content hcontent
  unfold Draft.finish at hcontent
  dsimp only at hcontent
  split at hcontent
  · exact h.contents content hcontent
  · rcases List.mem_append.mp hcontent with hcontent | hcontent
    · exact h.contents content hcontent
    · exact isMade_of_contents h.shape hcontent

/-- A member keeps a draft made if the contents of variants are. -/
theorem Draft.isMade_takeOrExtend {draft : Draft}
    (hvariants : ∀ variants, key = "oneOf" → value = .arr variants → ∀ variant ∈ variants,
      ∀ content ∈ (read scope options variant).value, content.IsMade scope options)
    (h : draft.IsMade scope options) :
    (takeOrExtend (read scope options) (Draft.takeMember scope) Draft.takeVariants draft key
      value).record.IsMade scope options := by
  unfold takeOrExtend
  split
  · next hkey =>
    split
    · next variants =>
      refine ⟨h.shape, fun content hcontent => ?_⟩
      rcases List.mem_append.mp hcontent with hcontent | hcontent
      · exact h.contents content hcontent
      · obtain ⟨contents, hcontents, hmem⟩ := List.mem_flatten.mp hcontent
        obtain ⟨variant, hvariant, hread⟩ := mem_value_readItems hcontents
        cases hread
        exact hvariants variants hkey rfl variant hvariant content hmem
    · exact h
  · exact Draft.isMade_takeMember h

/-- The contents of a property are made, those of its variants included. -/
theorem isMade_of_read (scope : Scope) (options : Options) (property : Json) :
    ∀ content ∈ (read scope options property).value, content.IsMade scope options := by
  induction property using variants_induction with
  | step property ih =>
    cases property with
    | obj members =>
      rw [read, readDraft_eq_readMembers]
      apply Draft.isMade_finish
      apply readMembers_invariant (p := Draft.IsMade scope options)
      · intro draft key value hvisit
        apply Draft.isMade_takeOrExtend
        rintro variants rfl rfl variant hvariant
        exact ih members variants variant rfl hvisit.mem hvariant
      · exact ⟨.empty, fun _ h => absurd h List.not_mem_nil⟩
    | _ =>
      simp only [read]
      exact fun _ h => absurd h List.not_mem_nil

end Property

namespace Device

variable (scope options)

mutual

/-- The contents of a device are those of its properties. -/
theorem isMade_of_traversal : (device : Json) → ∀ event ∈ traversal scope options device,
    ∀ content ∈ event.contents, content.IsMade scope options
  | .obj members => by
    intro event hevent content hcontent
    rcases List.mem_append.mp hevent with hevent | hevent
    · exact isMade_of_traversalOfMembers members event hevent content hcontent
    · cases List.mem_singleton.mp hevent
      cases hcontent
  | .null | .bool _ | .num _ | .str _ | .arr _ => nofun

theorem isMade_of_traversalOfMembers : (members : List (String × Json)) →
    ∀ event ∈ traversalOfMembers scope options members,
      ∀ content ∈ event.contents, content.IsMade scope options
  | [] => nofun
  | (key, value) :: rest => by
    intro event hevent
    have hrest := isMade_of_traversalOfMembers rest event
    unfold traversalOfMembers at hevent
    split at hevent
    · cases hevent
    · next hmember =>
      cases hmember
      rcases List.mem_append.mp hevent with hevent | hevent
      · obtain ⟨⟨code, property⟩, _, rfl⟩ := List.mem_map.mp hevent
        exact Property.isMade_of_read scope options property
      · exact hrest hevent
    · next variants _ hmember =>
      cases hmember
      rcases List.mem_append.mp hevent with hevent | hevent
      · exact isMade_of_traversalOfVariants variants event hevent
      · exact hrest hevent
    · next hmember =>
      cases hmember
      exact hrest hevent

theorem isMade_of_traversalOfVariants : (variants : List Json) →
    ∀ event ∈ traversalOfVariants scope options variants,
      ∀ content ∈ event.contents, content.IsMade scope options
  | [] => nofun
  | variant :: rest => by
    intro event hevent
    rcases List.mem_append.mp hevent with hevent | hevent
    · exact isMade_of_traversal variant event hevent
    · exact isMade_of_traversalOfVariants rest event hevent

end

/-- The interfaces of a device are made of the contents of its properties. -/
theorem Emits.isMade {device : Json} {interfaces : List Interface}
    (h : Emits scope options device interfaces) :
    ∀ interface ∈ interfaces, interface.IsMade scope options := by
  obtain ⟨closings, hclosings, rfl⟩ := h.of_closings
  have htrace := (hclosings closings).mpr rfl
  intro interface hinterface
  obtain ⟨closing, hclosing, hmake⟩ := List.mem_filterMap.mp hinterface
  obtain ⟨en, _, rfl⟩ := Option.map_eq_some_iff.mp hmake
  refine ⟨_, _, _, rfl, fun content hcontent => ?_⟩
  obtain ⟨contents, hcontents, hmem⟩ := List.mem_flatten.mp hcontent
  have hevent : .produced contents ∈ closings.flatMap Closing.events :=
    List.mem_flatMap.mpr ⟨closing, hclosing,
      List.mem_append_left _ (List.mem_map_of_mem hcontents)⟩
  rw [htrace] at hevent
  exact isMade_of_traversal scope options device _ hevent content hmem

end Device

/-- The interfaces of a document are made of the contents of its properties. -/
theorem Conversion.isMade_of_ofDocument {document : Json} {c : Conversion}
    (h : ofDocument options document = .ok c) :
    ∃ definitions, ∀ interface ∈ c.interfaces,
      interface.IsMade { definitions, maxDepth := options.maxDepth } options := by
  obtain ⟨definitions, devices, -, -, rfl⟩ := rootMembers_of_ofDocument h
  refine ⟨definitions, fun interface hinterface => ?_⟩
  rw [interfaces_ofDevices] at hinterface
  obtain ⟨entry, _, hinterface⟩ := List.mem_flatMap.mp hinterface
  exact (Device.emits_assemble _ options entry.2).isMade _ _ interface hinterface

end DeviceTwin
