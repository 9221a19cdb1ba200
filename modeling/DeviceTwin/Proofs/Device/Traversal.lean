import DeviceTwin.Proofs.Device
import DeviceTwin.Proofs.Notes

/-!
Devices member by member. What a member contributes to the trace and to the findings does not
depend on the members before it; the trace of a device is that of its properties and variants in
the order of the document.
-/
namespace DeviceTwin.Device

variable {scope : Scope} {options : Options} {draft : Draft} {key : String} {value : Json}
  {members properties : List (String × Json)} {variants : List Json} {position : Nat}

/-- The class name after a member, which replaces it if it is a class name that can be read. -/
def classNameAfter (className : Labels) (member : String × Json) : Labels :=
  if member.1 = "className" then (Labels.read member.2).toOption.getD className else className

/-- The class name that the members of a device give. -/
def classNameOf (members : List (String × Json)) : Labels := members.foldl classNameAfter {}

section Traversal

variable (scope options)

mutual

/-- The events of a device from its first member to its last: each property produces its contents,
and every device or variant that is an object ends with its class name. -/
def traversal : Json → List Event
  | .obj members => traversalOfMembers members ++ [.ended (classNameOf members)]
  | _ => []

def traversalOfMembers : List (String × Json) → List Event
  | [] => []
  | ("elProperties", .obj properties) :: rest =>
    properties.map (fun (_, property) => .produced (Property.read scope options property).value) ++
      traversalOfMembers rest
  | ("oneOf", .arr variants) :: rest => traversalOfVariants variants ++ traversalOfMembers rest
  | _ :: rest => traversalOfMembers rest

def traversalOfVariants : List Json → List Event
  | [] => []
  | variant :: rest => traversal variant ++ traversalOfVariants rest

end

/-- Takes a member of a device, variants included. -/
abbrev takeAny : Draft → String → Json → Taken Draft :=
  takeOrExtend (read scope options) (Draft.takeMember scope options) Draft.extend

/-- The events and findings that a member contributes. -/
def notesOfMember (key : String) (value : Json) : Noted (List Event) :=
  ⟨(takeAny scope options {} key value).record.trace,
    (takeAny scope options {} key value).findingsUnder key⟩

/-- The events and findings of members, one after the other. -/
def notesOfMembers : List (String × Json) → Noted (List Event)
  | [] => ⟨[], []⟩
  | (key, value) :: rest => notesOfMember scope options key value ++ notesOfMembers rest

end Traversal

theorem classNameAfter_of_ne (h : key ≠ "className") (className : Labels) :
    classNameAfter className (key, value) = className := if_neg h

/-- A member extends the trace by its events, whatever has been taken before it. -/
theorem takeAny_eq : takeAny scope options draft key value =
    { takeAny scope options {} key value with
      record := ⟨classNameAfter draft.className (key, value),
        draft.trace ++ (notesOfMember scope options key value).value⟩ } := by
  unfold notesOfMember takeAny takeOrExtend
  by_cases hone : key = "oneOf"
  · subst key
    rw [classNameAfter_of_ne (by decide)]
    cases value <;> simp [Draft.extend, Taken.store, Taken.ofExcept, Taken.refused]
  · simp only [if_neg hone]
    unfold Draft.takeMember
    split
    · cases h : Labels.read value <;>
        simp [Taken.ofExcept, classNameAfter, Except.map, Except.toOption, h]
    · rw [classNameAfter_of_ne (by decide)]
      cases value <;> simp [Json.expectObject, Draft.extend, Taken.store, Taken.ofExcept,
        Taken.refused]
    · rw [classNameAfter_of_ne (by decide)]
      cases value <;> simp [Json.expectObject, Taken.ofExcept, Except.map]
    · rw [classNameAfter_of_ne (by decide)]
      cases value <;> simp [Json.expectString, Taken.ofExcept, Except.map]
    · next hname _ _ _ =>
      rw [classNameAfter_of_ne hname]
      simp [Taken.refused]

theorem readMembers_takeAny :
    readMembers (takeAny scope options) draft members =
      ⟨⟨members.foldl classNameAfter draft.className,
          draft.trace ++ (notesOfMembers scope options members).value⟩,
        (notesOfMembers scope options members).findings⟩ := by
  induction members generalizing draft with
  | nil => simp [readMembers, notesOfMembers]
  | cons member rest ih =>
    obtain ⟨key, value⟩ := member
    have hfindings : (takeAny scope options draft key value).findingsUnder key =
        (notesOfMember scope options key value).findings := by rw [takeAny_eq]; rfl
    rw [readMembers, ih, hfindings, takeAny_eq]
    simp [notesOfMembers, List.append_assoc]

/-- A device is the sum of its members and its end. -/
theorem read_obj : read scope options (.obj members) =
    notesOfMembers scope options members ++ ⟨[.ended (classNameOf members)], []⟩ := by
  rw [read, readDraft_eq_readMembers, readMembers_takeAny]
  exact Noted.ext rfl (List.append_nil _).symm

theorem notesOfMember_properties : notesOfMember scope options "elProperties" (.obj properties) =
    (readProperties scope options properties).within "elProperties" :=
  Noted.ext rfl (by simp [notesOfMember, takeAny, takeOrExtend, Draft.takeMember, Json.expectObject,
    Draft.extend, Taken.store, Taken.ofExcept, Taken.findingsUnder, Noted.within])

theorem notesOfMember_variants : notesOfMember scope options "oneOf" (.arr variants) =
    (readEach (read scope options) 0 variants).within "oneOf" :=
  Noted.ext rfl (by simp [notesOfMember, takeAny, takeOrExtend, Draft.extend, Taken.store,
    Taken.ofExcept, Taken.findingsUnder, Noted.within])

/-- Only properties and variants have events. -/
theorem value_notesOfMember_other
    (hproperties : ∀ properties, (key, value) ≠ ("elProperties", .obj properties))
    (hvariants : ∀ variants, (key, value) ≠ ("oneOf", .arr variants)) :
    (notesOfMember scope options key value).value = [] := by
  unfold notesOfMember takeAny takeOrExtend
  by_cases hone : key = "oneOf"
  · rw [if_pos hone]
    split
    · exact absurd (by rw [hone]) (hvariants _)
    · rfl
  · rw [if_neg hone]
    unfold Draft.takeMember
    split
    · cases Labels.read value <;> rfl
    · cases value with
      | obj properties => exact absurd rfl (hproperties properties)
      | _ => rfl
    · cases value <;> rfl
    · cases value <;> rfl
    · rfl

/-- What is found in properties stands below their codes. -/
theorem pointers_readProperties {P : Pointer → Prop}
    (h : ∀ code property, (code, property) ∈ properties →
      ∀ f ∈ (Property.read scope options property).findings, P (code :: f.pointer)) :
    ∀ f ∈ (readProperties scope options properties).findings, P f.pointer := by
  induction properties with
  | nil => exact nofun
  | cons entry rest ih =>
    obtain ⟨code, property⟩ := entry
    intro f hf
    rcases List.mem_append.mp hf with hf | hf
    · obtain ⟨g, hg, rfl⟩ := List.mem_map.mp hf
      exact h code property List.mem_cons_self g hg
    · exact ih (fun code property hm => h code property (List.mem_cons_of_mem _ hm)) f hf

theorem value_readProperties : (readProperties scope options properties).value =
    properties.map fun (_, property) => .produced (Property.read scope options property).value := by
  induction properties with
  | nil => rfl
  | cons entry rest ih => rw [readProperties, List.map_cons, ← ih]; rfl

theorem value_readEach (h : ∀ variant ∈ variants,
      (read scope options variant).value = traversal scope options variant) :
    (readEach (read scope options) position variants).value =
      traversalOfVariants scope options variants := by
  induction variants generalizing position with
  | nil => rfl
  | cons variant rest ih =>
    have hhead := h variant List.mem_cons_self
    have htail : (readEach (read scope options) (position + 1) rest).value =
        traversalOfVariants scope options rest := ih fun v hv => h v (List.mem_cons_of_mem _ hv)
    rw [readEach_cons, traversalOfVariants, ← htail, ← hhead]
    rfl

theorem value_notesOfMembers (h : ∀ variants variant, ("oneOf", .arr variants) ∈ members →
      variant ∈ variants → (read scope options variant).value = traversal scope options variant) :
    (notesOfMembers scope options members).value = traversalOfMembers scope options members := by
  induction members with
  | nil => rfl
  | cons member rest ih =>
    obtain ⟨key, value⟩ := member
    have hrest := ih fun variants variant hm => h variants variant (List.mem_cons_of_mem _ hm)
    rw [notesOfMembers, Noted.value_append, hrest]
    by_cases hproperties : ∃ properties, (key, value) = ("elProperties", .obj properties)
    · obtain ⟨properties, heq⟩ := hproperties
      cases heq
      rw [traversalOfMembers, notesOfMember_properties, ← value_readProperties]
      rfl
    · by_cases hvariants : ∃ variants, (key, value) = ("oneOf", .arr variants)
      · obtain ⟨variants, heq⟩ := hvariants
        cases heq
        rw [traversalOfMembers, notesOfMember_variants,
          ← value_readEach fun variant hv => h variants variant List.mem_cons_self hv]
        rfl
      · have hproperties := not_exists.mp hproperties
        have hvariants := not_exists.mp hvariants
        rw [value_notesOfMember_other hproperties hvariants, traversalOfMembers, List.nil_append]
        · exact hproperties
        · exact hvariants

/-- Reading a device gives its traversal. -/
theorem value_read (device : Json) :
    (read scope options device).value = traversal scope options device := by
  induction device using variants_induction with
  | step device ih =>
    cases device with
    | obj members =>
      rw [read_obj, Noted.value_append, traversal,
        value_notesOfMembers fun variants variant => ih members variants variant rfl]
    | _ => simp only [read, traversal, Noted.refused]

end DeviceTwin.Device
