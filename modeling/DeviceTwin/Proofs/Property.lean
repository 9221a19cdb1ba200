import DeviceTwin.Property
import DeviceTwin.Proofs.Interface.Content
import DeviceTwin.Proofs.Variants

/-!
The descriptors of a property. Reading a property depends on the definitions and the cap only
through the shapes of these, and reports limits only from reading them.
-/
namespace DeviceTwin.Property

/-- The member that holds the descriptor of a property. -/
def Describes (key : String) (value descriptor : Json) : Prop :=
  key = "data" ∧ ∃ fields, value = .obj fields ∧ descriptor = .obj fields

/-- `DescribedBy property descriptor`: the data of the property, or of a variant, has this
descriptor. -/
abbrev DescribedBy : Json → Json → Prop := InVariants Describes

theorem DescribedBy.nesting_lt {property descriptor : Json} (h : DescribedBy property descriptor) :
    descriptor.nesting < property.nesting := by
  apply InVariants.nesting_lt _ h
  rintro key value x ⟨_, fields, rfl, rfl⟩
  exact Nat.le_refl _

variable {scope scope' : Scope} {options : Options} {draft : Draft} {key : String}
  {property value : Json} {members : List (String × Json)} {variants : List Json} {position : Nat}
  {v : Violation} {cap : Nat}

theorem readVariants_eq_readEach :
    readVariants scope options position variants =
      readEach (read scope options) position variants := by
  induction variants generalizing position with
  | nil => rfl
  | cons variant rest ih => rw [readVariants, readEach_cons, ih]

theorem readDraft_eq_readMembers :
    readDraft scope options draft members =
      readMembers
        (takeOrExtend (read scope options) (Draft.takeMember scope) Draft.takeVariants) draft
        members := by
  induction members generalizing draft with
  | nil => rfl
  | cons entry rest ih =>
    obtain ⟨key, value⟩ := entry
    cases value <;>
      simp only [readDraft, readMembers, takeOrExtend, readVariants_eq_readEach, ih]

section Cap

/-! Reading under another cap. -/

theorem alternativeContents_maxDepth {shapes : List Shape} {p : Property} :
    alternativeContents { options with maxDepth := cap } p position shapes =
      alternativeContents options p position shapes := by
  induction shapes generalizing position with
  | nil => rfl
  | cons shape rest ih => simp only [alternativeContents, contentsOf, Content.make_maxDepth, ih]

theorem contents_maxDepth (p : Property) :
    contents { options with maxDepth := cap } p = contents options p := by
  unfold contents
  split
  · rw [alternativeContents_maxDepth]
  · simp only [contentsOf, Content.make_maxDepth]

theorem finish_maxDepth (n : Noted Draft) :
    Draft.finish { options with maxDepth := cap } n = Draft.finish options n := by
  simp only [Draft.finish, contents_maxDepth]

theorem takeMember_congr
    (h : ∀ fields, key = "data" → value = .obj fields →
      Descriptor.read scope' value = Descriptor.read scope value) :
    draft.takeMember scope' key value = draft.takeMember scope key value := by
  unfold Draft.takeMember
  split
  case h_3 =>
    cases value with
    | obj fields => simp only [Draft.takeData, Json.expectObject, h fields rfl rfl]
    | _ => simp only [Draft.takeData, Json.expectObject]
  all_goals rfl

/-- A property whose descriptors read the same reads the same. -/
theorem read_congr
    (h : ∀ descriptor, DescribedBy property descriptor →
      Descriptor.read scope' descriptor = Descriptor.read scope descriptor) :
    read scope' { options with maxDepth := cap } property = read scope options property := by
  refine read_congr_of_variants (Draft.takeMember scope) (Draft.takeMember scope')
    Draft.takeVariants {} (fun members hmembers => ?_) (fun json hjson => ?_) ?_ h
  · rw [read, read, readDraft_eq_readMembers, readDraft_eq_readMembers, hmembers, finish_maxDepth]
  · cases json with
    | obj members => cases hjson
    | _ => simp only [read]
  · intro draft key value hsame
    apply takeMember_congr
    rintro fields rfl rfl
    exact hsame _ ⟨rfl, fields, rfl, rfl⟩

end Cap

section Limits

/-! Limits come from descriptors only. -/

variable (hv : v.isLimit = true)

include hv

theorem not_mem_violations_contentsOf {p : Property} {index : Nat} {shape : Shape} :
    v ∉ (contentsOf options p index shape).violations := by
  unfold contentsOf
  split
  · simp
  · next violation he =>
    have hplain := Content.plain_make violation he
    rw [Noted.violations_refused, List.mem_singleton]
    rintro rfl
    simp_all

theorem not_mem_violations_alternativeContents {p : Property} {shapes : List Shape} :
    v ∉ (alternativeContents options p position shapes).violations := by
  induction shapes generalizing position with
  | nil => simp [alternativeContents]
  | cons shape rest ih =>
    rw [alternativeContents, Noted.mem_violations_append, Noted.violations_within]
    rintro (h | h)
    · exact not_mem_violations_contentsOf hv h
    · exact ih h

theorem not_mem_violations_contents (p : Property) : v ∉ (p.contents options).violations := by
  unfold contents
  split
  · rw [Noted.violations_within, Noted.violations_within]
    exact not_mem_violations_alternativeContents hv
  · exact not_mem_violations_contentsOf hv

theorem mem_violations_finish {n : Noted Draft} :
    v ∈ (Draft.finish options n).violations ↔ v ∈ n.violations := by
  obtain ⟨⟨p, hasVariants, contents⟩, findings⟩ := n
  unfold Draft.finish
  dsimp only
  split
  · rfl
  · rw [Noted.violations_mk, List.map_append, List.mem_append, or_iff_left]
    · rfl
    · exact not_mem_violations_contents hv p

theorem not_mem_violations_takeRule {access : Access} :
    v ∉ (takeRule access key value).violations := by
  apply not_mem_violations_ofExcept hv
  refine plain_expectString.bind fun name => ?_
  split
  · exact plain_ok _
  · exact plain_ok _
  · exact plain_ok _
  · exact plain_error rfl

theorem not_mem_violations_takeAccess : v ∉ (draft.takeAccess value).violations := by
  unfold Draft.takeAccess
  split
  · next h => exact not_mem_violations_refused hv (plain_expectObject _ h)
  · rw [mem_violations_store_plain hv fun _ => plain_ok _]
    intro h
    obtain ⟨access, key, rule, _, h⟩ := mem_violations_readMembers.mp h
    exact not_mem_violations_takeRule hv h

theorem mem_violations_takeData :
    v ∈ (draft.takeData scope value).violations ↔
      ∃ fields, value = .obj fields ∧ v ∈ (Descriptor.read scope value).violations := by
  cases value with
  | obj fields =>
    simp only [Draft.takeData, Json.expectObject, mem_violations_store_plain hv fun _ => plain_ok _]
    constructor
    · exact fun h => ⟨fields, rfl, h⟩
    · rintro ⟨_, _, h⟩
      exact h
  | _ => exact iff_of_false (not_mem_violations_refused hv rfl) (by simp)

theorem mem_violations_takeMember :
    v ∈ (draft.takeMember scope key value).violations ↔
      key = "data" ∧ ∃ fields, value = .obj fields ∧
        v ∈ (Descriptor.read scope value).violations := by
  unfold Draft.takeMember
  split
  · exact iff_of_false (not_mem_violations_ofExcept hv Labels.plain_read.map) (by simp)
  · exact iff_of_false (not_mem_violations_takeAccess hv) (by simp)
  · simp [mem_violations_takeData hv]
  · exact iff_of_false (not_mem_violations_ofExcept hv plain_expectObject.map) (by simp)
  · exact iff_of_false (not_mem_violations_ofExcept hv plain_expectObject.map) (by simp)
  · exact iff_of_false (not_mem_violations_ofExcept hv plain_expectString.map) (by simp)
  · next hk => exact iff_of_false (not_mem_violations_refused hv rfl) fun h => by simp_all

/-- A limit found in a property comes from reading one of its descriptors. -/
theorem mem_violations_read :
    v ∈ (read scope options property).violations ↔
      ∃ descriptor, DescribedBy property descriptor ∧
        v ∈ (Descriptor.read scope descriptor).violations := by
  apply mem_violations_of_variants (Draft.takeMember scope) Draft.takeVariants {} hv
  · exact fun r n => mem_violations_store_plain hv fun _ => plain_ok _
  · intro members
    rw [read, mem_violations_finish hv, readDraft_eq_readMembers]
  · intro json hjson h
    cases json with
    | obj members => cases hjson
    | _ => simp_all [read, Violation.isLimit]
  · rintro value x ⟨hkey, _⟩
    exact absurd hkey (by decide)
  · intro draft key value
    rw [mem_violations_takeMember hv]
    constructor
    · rintro ⟨hkey, fields, rfl, h⟩
      exact ⟨_, ⟨hkey, fields, rfl, rfl⟩, h⟩
    · rintro ⟨_, ⟨hkey, fields, rfl, rfl⟩, h⟩
      exact ⟨hkey, fields, rfl, h⟩

end Limits

end DeviceTwin.Property
