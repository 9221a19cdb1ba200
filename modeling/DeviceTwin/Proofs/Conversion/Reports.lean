import DeviceTwin.Proofs.Conversion.DepthCap
import DeviceTwin.Proofs.Reports

/-!
From a property to the diagnostics. What is found in the parts of properties and devices is found in
the conversion, at the places of the parts.
-/
namespace DeviceTwin

variable {scope : Scope} {options : Options} {key code : String}
  {value property device variant descriptor : Json} {place : Pointer}
  {members properties devices fields : List (String × Json)}

namespace Property

theorem findings_subset_finish (n : Noted Draft) :
    n.findings ⊆ (Draft.finish options n).findings := by
  unfold Draft.finish
  dsimp only
  split
  · exact List.Subset.refl _
  · exact List.subset_append_left _ _

theorem keeps_variant (h : VariantAt property place variant) :
    Keeps place (read scope options variant).findings (read scope options property).findings := by
  apply h.keeps (Draft.takeMember scope) Draft.takeVariants {} fun _ _ => rfl
  intro members
  rw [read, ← readDraft_eq_readMembers]
  exact findings_subset_finish _

/-- What is found in a member other than variants, at the record where it is taken. -/
theorem exists_member_subset (hm : (key, value) ∈ members) (hkey : key ≠ "oneOf") :
    ∃ draft : Draft, (draft.takeMember scope key value).findingsUnder key ⊆
      (read scope options (.obj members)).findings := by
  obtain ⟨draft, hv⟩ : ∃ draft, Visits (takeOrExtend (read scope options) (Draft.takeMember scope)
    Draft.takeVariants) {} members draft key value := exists_visits_of_mem hm
  have hsub := findingsUnder_subset_readMembers hv
  simp only [takeOrExtend, if_neg hkey, ← readDraft_eq_readMembers] at hsub
  rw [read]
  exact ⟨draft, List.Subset.trans hsub (findings_subset_finish _)⟩

theorem keeps_data (hm : ("data", .obj fields) ∈ members) :
    Keeps ["data"] (Descriptor.read scope (.obj fields)).findings
      (read scope options (.obj members)).findings := by
  obtain ⟨draft, hsub⟩ := exists_member_subset hm (by decide)
  intro f hf
  exact hsub (List.mem_map_of_mem (List.mem_append_left _ hf))

theorem DescribedBy.keeps (h : DescribedBy property descriptor) :
    ∃ place, Keeps place (Descriptor.read scope descriptor).findings
      (read scope options property).findings := by
  obtain ⟨place, members, key, value, hvariant, hm, rfl, fields, rfl, rfl⟩ := h.exists_variantAt
  exact ⟨_, (keeps_data hm).trans (keeps_variant hvariant)⟩

end Property

namespace Device

theorem keeps_variant (h : VariantAt device place variant) :
    Keeps place (read scope options variant).findings (read scope options device).findings := by
  apply h.keeps (Draft.takeMember scope options) Draft.extend {} fun _ _ => rfl
  intro members
  rw [read, readDraft_eq_readMembers]
  exact List.Subset.refl _

theorem exists_member_subset (hm : (key, value) ∈ members) (hkey : key ≠ "oneOf") :
    ∃ draft : Draft, (draft.takeMember scope options key value).findingsUnder key ⊆
      (read scope options (.obj members)).findings := by
  obtain ⟨draft, hv⟩ : ∃ draft, Visits (takeOrExtend (read scope options)
    (Draft.takeMember scope options) Draft.extend) {} members draft key value :=
      exists_visits_of_mem hm
  have hsub := findingsUnder_subset_readMembers hv
  simp only [takeOrExtend, if_neg hkey, ← readDraft_eq_readMembers] at hsub
  rw [read]
  exact ⟨draft, hsub⟩

theorem keeps_readProperties (hm : (code, property) ∈ properties) :
    Keeps [code] (Property.read scope options property).findings
      (readProperties scope options properties).findings := by
  induction properties with
  | nil => cases hm
  | cons entry rest ih =>
    rcases List.mem_cons.mp hm with rfl | hm
    · exact fun f hf => List.mem_append_left _ (List.mem_map_of_mem hf)
    · exact (ih hm).subset (List.subset_append_right _ _)

theorem keeps_property (hm : ("elProperties", .obj properties) ∈ members)
    (hproperty : (code, property) ∈ properties) :
    Keeps ["elProperties", code] (Property.read scope options property).findings
      (read scope options (.obj members)).findings := by
  obtain ⟨draft, hsub⟩ := exists_member_subset hm (by decide)
  have hmember : Keeps ["elProperties"] (readProperties scope options properties).findings
      (read scope options (.obj members)).findings :=
    fun f hf => hsub (List.mem_map_of_mem (List.mem_append_left _ hf))
  exact (keeps_readProperties hproperty).trans hmember

theorem DescribedBy.keeps (h : DescribedBy device descriptor) :
    ∃ place, Keeps place (Descriptor.read scope descriptor).findings
      (read scope options device).findings := by
  obtain ⟨place, members, key, value, hvariant, hm, rfl, properties, rfl, code, property,
    hproperty, hdescribed⟩ := h.exists_variantAt
  obtain ⟨inner, hkeeps⟩ := hdescribed.keeps
  exact ⟨_, (hkeeps.trans (keeps_property hm hproperty)).trans (keeps_variant hvariant)⟩

end Device

namespace Conversion

theorem keeps_device (hm : (code, device) ∈ devices) :
    Keeps ["devices", code] (Device.read scope options device).findings
      (ofDevices scope options devices).findings := by
  induction devices with
  | nil => cases hm
  | cons entry rest ih =>
    rw [ofDevices, findings_append]
    rcases List.mem_cons.mp hm with rfl | hm
    · rw [findings_ofDevice]
      exact fun f hf => List.mem_append_left _ (List.mem_map_of_mem hf)
    · exact (ih hm).subset (List.subset_append_right _ _)

theorem DescribedBy.keeps (h : DescribedBy devices descriptor) :
    ∃ place, Keeps place (Descriptor.read scope descriptor).findings
      (ofDevices scope options devices).findings := by
  obtain ⟨code, device, hm, hdescribed⟩ := h
  obtain ⟨inner, hkeeps⟩ := hdescribed.keeps
  exact ⟨_, hkeeps.trans (keeps_device hm)⟩

end Conversion

end DeviceTwin
