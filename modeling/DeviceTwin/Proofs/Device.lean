import DeviceTwin.Device
import DeviceTwin.Proofs.Property

/-!
The descriptors of a device, those of its properties and variants. As for properties, nothing else
depends on the definitions and the cap, and nothing else reports limits.
-/
namespace DeviceTwin.Device

/-- The member that holds the descriptors of the properties of a device. -/
def Describes (key : String) (value descriptor : Json) : Prop :=
  key = "elProperties" ∧ ∃ properties, value = .obj properties ∧
    ∃ code property, (code, property) ∈ properties ∧ Property.DescribedBy property descriptor

/-- `DescribedBy device descriptor`: a property of the device, or of a variant, has this
descriptor. -/
abbrev DescribedBy : Json → Json → Prop := InVariants Describes

theorem DescribedBy.nesting_lt {device descriptor : Json} (h : DescribedBy device descriptor) :
    descriptor.nesting < device.nesting := by
  apply InVariants.nesting_lt _ h
  rintro key value x ⟨_, properties, rfl, code, property, hp, hd⟩
  have := hd.nesting_lt
  have := Json.nesting_lt_obj hp
  omega

variable {scope scope' : Scope} {options : Options} {draft : Draft} {key : String}
  {device value : Json} {members properties : List (String × Json)} {variants : List Json}
  {position : Nat} {v : Violation} {cap : Nat}

theorem readVariants_eq_readEach :
    readVariants scope options position variants =
      readEach (read scope options) position variants := by
  induction variants generalizing position with
  | nil => rfl
  | cons variant rest ih => rw [readVariants, readEach_cons, ih]

theorem readDraft_eq_readMembers :
    readDraft scope options draft members =
      readMembers
        (takeOrExtend (read scope options) (Draft.takeMember scope options) Draft.extend) draft
        members := by
  induction members generalizing draft with
  | nil => rfl
  | cons entry rest ih =>
    obtain ⟨key, value⟩ := entry
    cases value <;>
      simp only [readDraft, readMembers, takeOrExtend, readVariants_eq_readEach, ih]

section Cap

/-! Reading under another cap. -/

theorem assemble_maxDepth (trace : List Event) :
    assemble { options with maxDepth := cap } trace = assemble options trace := by
  have hfrom : ∀ pending, assembleFrom { options with maxDepth := cap } pending trace =
      assembleFrom options pending trace := by
    induction trace with
    | nil => exact fun _ => rfl
    | cons event rest ih =>
      intro pending
      obtain contents | ⟨ja, _ | en⟩ := event
      · exact ih _
      · exact ih _
      · exact congrArg _ (ih _)
  exact hfrom []

theorem readProperties_congr
    (h : ∀ code property, (code, property) ∈ properties → ∀ descriptor,
      Property.DescribedBy property descriptor →
      Descriptor.read scope' descriptor = Descriptor.read scope descriptor) :
    readProperties scope' { options with maxDepth := cap } properties =
      readProperties scope options properties := by
  induction properties with
  | nil => rfl
  | cons entry rest ih =>
    obtain ⟨code, property⟩ := entry
    have hhead : Property.read scope' { options with maxDepth := cap } property =
        Property.read scope options property :=
      Property.read_congr (h code property List.mem_cons_self)
    have htail := ih fun code property hm => h code property (List.mem_cons_of_mem _ hm)
    simp only [readProperties, hhead, htail]

theorem takeMember_congr
    (h : ∀ properties code property, key = "elProperties" → value = .obj properties →
      (code, property) ∈ properties → ∀ descriptor, Property.DescribedBy property descriptor →
      Descriptor.read scope' descriptor = Descriptor.read scope descriptor) :
    draft.takeMember scope' { options with maxDepth := cap } key value =
      draft.takeMember scope options key value := by
  unfold Draft.takeMember
  split
  case h_2 =>
    cases value with
    | obj properties =>
      have hread : readProperties scope' { options with maxDepth := cap } properties =
          readProperties scope options properties :=
        readProperties_congr fun code property => h properties code property rfl rfl
      simp only [Json.expectObject, hread]
    | _ => simp only [Json.expectObject]
  all_goals rfl

/-- A device whose descriptors read the same reads the same. -/
theorem read_congr
    (h : ∀ descriptor, DescribedBy device descriptor →
      Descriptor.read scope' descriptor = Descriptor.read scope descriptor) :
    read scope' { options with maxDepth := cap } device = read scope options device := by
  refine read_congr_of_variants (Draft.takeMember scope options)
    (Draft.takeMember scope' { options with maxDepth := cap }) Draft.extend {}
    (fun members hmembers => ?_) (fun json hjson => ?_) ?_ h
  · rw [read, read, readDraft_eq_readMembers, readDraft_eq_readMembers, hmembers]
  · cases json with
    | obj members => cases hjson
    | _ => simp only [read]
  · intro draft key value hsame
    apply takeMember_congr
    rintro properties code property rfl rfl hp descriptor hd
    exact hsame descriptor ⟨rfl, properties, rfl, code, property, hp, hd⟩

end Cap

section Limits

/-! Limits come from descriptors only. -/

variable (hv : v.isLimit = true)

theorem mem_violations_readProperties :
    v ∈ (readProperties scope options properties).violations ↔
      ∃ code property, (code, property) ∈ properties ∧
        v ∈ (Property.read scope options property).violations := by
  induction properties with
  | nil => simp [readProperties]
  | cons entry rest ih =>
    obtain ⟨code, property⟩ := entry
    rw [readProperties, Noted.mem_violations_append, Noted.violations_within, ih]
    constructor
    · rintro (h | ⟨code', property', hm, h⟩)
      · exact ⟨code, property, List.mem_cons_self, h⟩
      · exact ⟨code', property', List.mem_cons_of_mem _ hm, h⟩
    · rintro ⟨code', property', hm, h⟩
      rcases List.mem_cons.mp hm with heq | hm
      · cases heq
        exact Or.inl h
      · exact Or.inr ⟨code', property', hm, h⟩

include hv

theorem mem_violations_takeMember :
    v ∈ (draft.takeMember scope options key value).violations ↔
      key = "elProperties" ∧ ∃ properties, value = .obj properties ∧
        ∃ code property, (code, property) ∈ properties ∧
          v ∈ (Property.read scope options property).violations := by
  unfold Draft.takeMember
  split
  · exact iff_of_false (not_mem_violations_ofExcept hv Labels.plain_read.map) (by simp)
  · cases value with
    | obj properties =>
      simp only [Json.expectObject]
      rw [Draft.extend, mem_violations_store_plain hv fun _ => plain_ok _,
        mem_violations_readProperties]
      simp
    | _ => exact iff_of_false (not_mem_violations_refused hv rfl) (by simp)
  · exact iff_of_false (not_mem_violations_ofExcept hv plain_expectObject.map) (by simp)
  · exact iff_of_false (not_mem_violations_ofExcept hv plain_expectString.map) (by simp)
  · next hk => exact iff_of_false (not_mem_violations_refused hv rfl) fun h => by simp_all

/-- A limit found in a device comes from reading one of its descriptors. -/
theorem mem_violations_read :
    v ∈ (read scope options device).violations ↔
      ∃ descriptor, DescribedBy device descriptor ∧
        v ∈ (Descriptor.read scope descriptor).violations := by
  apply mem_violations_of_variants (Draft.takeMember scope options) Draft.extend {} hv
  · exact fun r n => mem_violations_store_plain hv fun _ => plain_ok _
  · intro members
    rw [read, Noted.violations_map, readDraft_eq_readMembers]
  · intro json hjson h
    cases json with
    | obj members => cases hjson
    | _ => simp_all [read, Violation.isLimit]
  · rintro value x ⟨hkey, _⟩
    exact absurd hkey (by decide)
  · intro draft key value
    rw [mem_violations_takeMember hv]
    constructor
    · rintro ⟨hkey, properties, rfl, code, property, hp, h⟩
      obtain ⟨descriptor, hd, h⟩ := (Property.mem_violations_read hv).mp h
      exact ⟨descriptor, ⟨hkey, properties, rfl, code, property, hp, hd⟩, h⟩
    · rintro ⟨descriptor, ⟨hkey, properties, rfl, code, property, hp, hd⟩, h⟩
      exact ⟨hkey, properties, rfl, code, property, hp,
        (Property.mem_violations_read hv).mpr ⟨descriptor, hd, h⟩⟩

end Limits

end DeviceTwin.Device
