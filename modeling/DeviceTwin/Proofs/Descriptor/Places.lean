import DeviceTwin.Proofs.Descriptor.Levels
import DeviceTwin.Proofs.Json.Replace
import DeviceTwin.Proofs.Notes

/-!
The places of findings in a descriptor. A pointer goes on behind a reference in the definition that
the reference names; along such pointers everything that is found can be reached from the
descriptor.
-/
namespace DeviceTwin.Descriptor

/-- `Step definitions value segment part`: one step leads from the value to the part, down into it
or through a reference. -/
inductive Step (definitions : List (String × Json)) : Json → String → Json → Prop
  | child {value segment part} (h : Pointer.child? value segment = some part) :
    Step definitions value segment part
  | reference {members reference name target} (h : members.lookup "$ref" = some (.str reference))
    (hname : definitionName? reference = some name)
    (hdefined : definitions.lookup name = some target) :
    Step definitions (.obj members) "$ref" target

/-- The pointer leads somewhere from the value, through references or not. -/
def Leads (definitions : List (String × Json)) (value : Json) : Pointer → Prop
  | [] => True
  | segment :: rest => ∃ part, Step definitions value segment part ∧ Leads definitions part rest

section Leads

variable {definitions members : List (String × Json)} {items : List Json} {key : String}
  {value : Json} {place : Pointer} {f : Finding} {ρ α : Type}

/-- All that was found in a value is at places that can be reached from it. -/
abbrev LeadsAll (definitions : List (String × Json)) (value : Json) (findings : List Finding) :
    Prop :=
  ∀ f ∈ findings, Leads definitions value f.pointer

theorem leads_refused (a : α) (v : Violation) :
    LeadsAll definitions value (Noted.refused a v).findings := by
  intro f hf
  rw [List.mem_singleton.mp hf]
  trivial

/-- Members are read at their own places. -/
theorem leads_readMembers {take : ρ → String → Json → Taken ρ} {o : ρ}
    (hkeys : (Json.keys members).Nodup)
    (h : ∀ r key value, (key, value) ∈ members → ∃ part, Step definitions (.obj members) key part ∧
      LeadsAll definitions part (take r key value).findings) :
    LeadsAll definitions (.obj members) (readMembers take o members).findings := by
  apply pointers_readMembers
  · intro key hk
    obtain ⟨⟨_, value⟩, hm, rfl⟩ := List.mem_map.mp hk
    exact ⟨value, .child (lookup_of_mem hkeys hm), trivial⟩
  · intro r key value hm f hf
    obtain ⟨part, hstep, hpart⟩ := h r key value hm
    exact ⟨part, hstep, hpart f hf⟩

/-- Items are read at their own places. -/
theorem leads_readItems {read : Json → Noted (Option α)}
    (h : ∀ item ∈ items, LeadsAll definitions item (read item).findings) :
    LeadsAll definitions (.arr items) (readItems read 0 items).findings := by
  apply pointers_readItems
  intro i item hitem f hf
  exact ⟨item, .child ((Pointer.child?_arr items i).trans hitem),
    h item (List.mem_of_getElem? hitem) f hf⟩

/-- A record whose members are read at their own places is. -/
theorem leads_readRecord {take : ρ → String → Json → Taken ρ} {o : ρ}
    (hkeys : value.hasDistinctKeys)
    (h : ∀ r key (part : Json), part.hasDistinctKeys →
      LeadsAll definitions part (take r key part).findings) :
    LeadsAll definitions value (readRecord take o value).findings := by
  cases value with
  | obj members =>
    rw [Json.hasDistinctKeys_obj] at hkeys
    have hmembers : LeadsAll definitions (.obj members) (readMembers take o members).findings :=
      leads_readMembers hkeys.1 fun r key part hm =>
        ⟨part, .child (lookup_of_mem hkeys.1 hm), h r key part (hkeys.2 _ hm)⟩
    exact hmembers
  | _ => exact leads_refused _ _

theorem leads_readRecords {take : ρ → String → Json → Taken ρ} {o : ρ}
    (hkeys : (Json.arr items).hasDistinctKeys)
    (h : ∀ r key (part : Json), part.hasDistinctKeys →
      LeadsAll definitions part (take r key part).findings) :
    LeadsAll definitions (.arr items) (readItems (readRecord take o) 0 items).findings :=
  leads_readItems fun item hm => leads_readRecord (Json.hasDistinctKeys_arr.mp hkeys item hm) h

theorem leadsAll_nil : LeadsAll definitions value [] := fun _ hf => absurd hf List.not_mem_nil

theorem leadsAll_ofExcept {o : ρ} {x : Except Violation ρ} :
    LeadsAll definitions value (Taken.ofExcept o x).findings := by
  cases x <;> exact leadsAll_nil

end Leads

section Reading

variable {scope : Scope} {below : Option Application} {active : List String} {o : Outline}
  {key : String} {keyword : Keyword} {value descriptor : Json} {members : List (String × Json)}

/-- Whatever the level below finds in a descriptor can be reached from it. -/
def BelowLeads (scope : Scope) (below : Option Application) : Prop :=
  ∀ f, below = some f → ∀ active (descriptor : Json) o, descriptor.hasDistinctKeys →
    LeadsAll scope.definitions descriptor (f active descriptor o).findings

variable (hbelow : BelowLeads scope below)

include hbelow

theorem leads_readNested (hkeys : descriptor.hasDistinctKeys) :
    LeadsAll scope.definitions descriptor (readNested scope below active descriptor).findings := by
  cases below with
  | none => exact leads_refused _ _
  | some f =>
    intro g hg
    rcases List.mem_append.mp hg with hg | hg
    · exact hbelow f rfl active descriptor {} hkeys g hg
    · obtain ⟨v, _, rfl⟩ := List.mem_map.mp hg
      trivial

theorem leads_takePart {member : Member Shape} (hkeys : value.hasDistinctKeys) :
    LeadsAll scope.definitions value (takePart scope below active member key value).findings := by
  unfold takePart
  split
  · exact leadsAll_ofExcept
  · exact leads_readNested hbelow hkeys
  · exact leadsAll_nil

theorem leads_takeField {field : BitField Shape} (hkeys : value.hasDistinctKeys) :
    LeadsAll scope.definitions value (takeField scope below active field key value).findings := by
  unfold takeField
  split
  · exact leadsAll_ofExcept
  · exact leadsAll_ofExcept
  · exact leadsAll_ofExcept
  · exact leads_readNested hbelow hkeys
  · exact leadsAll_nil

omit hbelow in
theorem leads_takeValues (hkeys : value.hasDistinctKeys) :
    LeadsAll scope.definitions value (takeValues o value).findings := by
  cases value with
  | arr items =>
    simp only [takeValues, Json.expectArray]
    split
    · exact leads_readRecords hkeys fun _ _ _ _ => leadsAll_ofExcept
    · exact leads_readRecords hkeys fun _ _ _ _ => leadsAll_ofExcept
    · split
      · exact leadsAll_nil
      · exact leadsAll_ofExcept
    · exact leadsAll_nil
  | _ => exact leadsAll_nil

omit hbelow in
theorem leads_takeArray {ρ : Type} {take : ρ → String → Json → Taken ρ} {r : ρ}
    {put : List ρ → Except Violation Outline} (hkeys : value.hasDistinctKeys)
    (h : ∀ r key (part : Json), part.hasDistinctKeys →
      LeadsAll scope.definitions part (take r key part).findings) :
    LeadsAll scope.definitions value
      (takeArray o value (readItems (readRecord take r) 0) put).findings := by
  cases value with
  | arr items => exact leads_readRecords hkeys h
  | _ => exact leadsAll_nil

theorem leads_takeElement (hkeys : value.hasDistinctKeys) :
    LeadsAll scope.definitions value (takeElement scope below active o value).findings := by
  cases value with
  | obj members => exact leads_readNested hbelow hkeys
  | _ => exact leadsAll_nil

theorem leads_takeAlternatives (hkeys : value.hasDistinctKeys) :
    LeadsAll scope.definitions value (takeAlternatives scope below active o value).findings := by
  unfold takeAlternatives
  split
  · exact leadsAll_nil
  · cases value with
    | arr items =>
      have hitems : LeadsAll scope.definitions (.arr items)
          (readAlternatives scope below active items).findings :=
        leads_readItems fun item hm =>
          leads_readNested hbelow (Json.hasDistinctKeys_arr.mp hkeys item hm)
      exact hitems
    | _ => exact leadsAll_nil

theorem leads_takeKeyword (hkeys : value.hasDistinctKeys) (hk : keyword ≠ .reference) :
    LeadsAll scope.definitions value (takeKeyword scope below active o keyword value).findings := by
  cases keyword with
  | reference => exact absurd rfl hk
  | values => exact leads_takeValues hkeys
  | properties => exact leads_takeArray hkeys fun _ _ _ => leads_takePart hbelow
  | bitmaps => exact leads_takeArray hkeys fun _ _ _ => leads_takeField hbelow
  | items => exact leads_takeElement hbelow hkeys
  | oneOf => exact leads_takeAlternatives hbelow hkeys
  | _ => exact leadsAll_ofExcept

theorem leads_takeReference {reference : String}
    (hdefs : (Json.obj scope.definitions).hasDistinctKeys)
    (hlookup : members.lookup "$ref" = some (.str reference)) :
    ∃ part, Step scope.definitions (.obj members) "$ref" part ∧
      LeadsAll scope.definitions part
        (takeReference scope below active o reference).findings := by
  have hk : Keyword.ofName? "$ref" = some .reference := rfl
  rcases takeReference_cases scope below active o reference hk with
    ⟨v, hrefused⟩ | ⟨name, target, f, hf, rfl⟩
  · rw [hrefused]
    exact ⟨_, .child hlookup, leadsAll_nil⟩
  · rw [takeReference_some hf]
    rw [Json.hasDistinctKeys_obj] at hdefs
    exact ⟨target, .reference hlookup hf.name_eq hf.defined,
      hbelow f rfl _ target _ (hdefs.2 _ (mem_of_lookup hf.defined))⟩

/-- What a member finds can be reached from it, or from the definition that it refers to. -/
theorem leads_takeMember (hdefs : (Json.obj scope.definitions).hasDistinctKeys)
    (hkeys : (Json.obj members).hasDistinctKeys) (hm : (key, value) ∈ members) :
    ∃ part, Step scope.definitions (.obj members) key part ∧
      LeadsAll scope.definitions part (takeMember scope below active o key value).findings := by
  rw [Json.hasDistinctKeys_obj] at hkeys
  have hlookup := lookup_of_mem hkeys.1 hm
  have hvalue := hkeys.2 _ hm
  unfold takeMember
  split
  · exact ⟨value, .child hlookup, leadsAll_nil⟩
  · next keyword hk =>
    by_cases href : keyword = .reference
    · subst href
      obtain rfl := Keyword.ofName?_eq_some_iff.mp hk
      cases value with
      | str reference => exact leads_takeReference hbelow hdefs hlookup
      | _ => exact ⟨_, .child hlookup, leadsAll_nil⟩
    · exact ⟨value, .child hlookup, leads_takeKeyword hbelow hvalue href⟩

theorem leads_applyOver (hdefs : (Json.obj scope.definitions).hasDistinctKeys)
    (hkeys : descriptor.hasDistinctKeys) :
    LeadsAll scope.definitions descriptor
      (applyOver scope below active descriptor o).findings := by
  cases descriptor with
  | obj members =>
    exact leads_readMembers (Json.hasDistinctKeys_obj.mp hkeys).1
      fun r key value => leads_takeMember hbelow hdefs hkeys
  | _ => exact leads_refused _ _

omit hbelow in
theorem leads_apply (hdefs : (Json.obj scope.definitions).hasDistinctKeys) (level : Nat) :
    BelowLeads scope (some (apply scope level)) := by
  induction level with
  | zero =>
    rintro _ ⟨⟩ active descriptor o hkeys
    exact leads_applyOver nofun hdefs hkeys
  | succ level ih =>
    rintro _ ⟨⟩ active descriptor o hkeys
    exact leads_applyOver ih hdefs hkeys

omit hbelow in
/-- Everything found in a descriptor can be reached from it. -/
theorem leads_read (hdefs : (Json.obj scope.definitions).hasDistinctKeys)
    (hkeys : descriptor.hasDistinctKeys) :
    LeadsAll scope.definitions descriptor (read scope descriptor).findings := by
  intro f hf
  rcases List.mem_append.mp hf with hf | hf
  · exact leads_apply hdefs scope.maxDepth _ rfl [] descriptor {} hkeys f hf
  · obtain ⟨v, _, rfl⟩ := List.mem_map.mp hf
    trivial

end Reading

end DeviceTwin.Descriptor
