import DeviceTwin.Conversion
import DeviceTwin.Proofs.Device.Closing
import DeviceTwin.Proofs.Json.Pointer

/-!
Conversions device by device. The entries of `devices` are converted one after the other, and what
an entry gives is the same whatever stands around it.
-/
namespace DeviceTwin

attribute [ext] Stats Conversion

namespace Stats

variable (a b c : Stats)

theorem zero_add : {} + a = a := by
  ext <;> exact Nat.zero_add _

theorem add_assoc : a + b + c = a + (b + c) := by
  ext <;> exact Nat.add_assoc ..

end Stats

namespace Conversion

theorem ofDocument_eq {document : Json} {definitions devices : List (String × Json)}
    (hdefs : rootMember document "definitions" = .ok definitions)
    (hdevices : rootMember document "devices" = .ok devices) (options : Options) :
    ofDocument options document =
      .ok (ofDevices { definitions, maxDepth := options.maxDepth } options devices) := by
  rw [ofDocument, hdefs, hdevices]
  rfl

theorem rootMember_eq_ok_iff {document : Json} {member : String} {members : List (String × Json)} :
    rootMember document member = .ok members ↔
      ∃ root, document = .obj root ∧ root.lookup member = some (.obj members) := by
  cases document with
  | obj root =>
    rw [rootMember, Json.get?]
    cases hlookup : root.lookup member with
    | none => simp [hlookup]
    | some value => cases value <;> simp [Json.members?, hlookup]
  | _ => simp [rootMember, Json.get?]

/-- A document that can be converted has its definitions and devices. -/
theorem rootMembers_of_ofDocument {options : Options} {document : Json} {c : Conversion}
    (h : ofDocument options document = .ok c) :
    ∃ definitions devices, rootMember document "definitions" = .ok definitions ∧
      rootMember document "devices" = .ok devices ∧
      c = ofDevices { definitions, maxDepth := options.maxDepth } options devices := by
  obtain ⟨definitions, hdefs, hrest⟩ := bind_eq_ok_iff.mp h
  obtain ⟨devices, hdevices, hresult⟩ := bind_eq_ok_iff.mp hrest
  exact ⟨definitions, devices, hdefs, hdevices, (Except.ok.inj hresult).symm⟩

section Append

variable (a b c : Conversion)

@[simp] theorem interfaces_append : (a ++ b).interfaces = a.interfaces ++ b.interfaces := rfl

@[simp] theorem findings_append : (a ++ b).findings = a.findings ++ b.findings := rfl

@[simp] theorem diagnostics_append : (a ++ b).diagnostics = a.diagnostics ++ b.diagnostics :=
  List.map_append

theorem empty_append : {} ++ a = a :=
  Conversion.ext rfl rfl (Stats.zero_add a.stats)

theorem append_assoc : a ++ b ++ c = a ++ (b ++ c) :=
  Conversion.ext (List.append_assoc ..) (List.append_assoc ..) (Stats.add_assoc ..)

end Append

variable (scope : Scope) (options : Options)

theorem ofDevices_append (first second : List (String × Json)) :
    ofDevices scope options (first ++ second) =
      ofDevices scope options first ++ ofDevices scope options second := by
  induction first with
  | nil => rw [List.nil_append, ofDevices, empty_append]
  | cons entry rest ih => rw [List.cons_append, ofDevices, ofDevices, ih, append_assoc]

theorem interfaces_ofDevices (devices : List (String × Json)) :
    (ofDevices scope options devices).interfaces =
      devices.flatMap fun entry => (ofDevice scope options entry.1 entry.2).interfaces := by
  induction devices with
  | nil => rfl
  | cons entry rest ih => rw [ofDevices, interfaces_append, ih, List.flatMap_cons]

theorem diagnostics_ofDevices (devices : List (String × Json)) :
    (ofDevices scope options devices).diagnostics =
      devices.flatMap fun entry => (ofDevice scope options entry.1 entry.2).diagnostics := by
  induction devices with
  | nil => rfl
  | cons entry rest ih => rw [ofDevices, diagnostics_append, ih, List.flatMap_cons]

theorem findings_ofDevice (code : String) (device : Json) :
    (ofDevice scope options code device).findings =
      ((Device.read scope options device).beneath ["devices", code]).findings := by
  rw [← Noted.within_beneath, ← Noted.within_beneath, Noted.beneath_nil]
  rfl

theorem diagnostic_beneath (place : Pointer) (f : Finding) :
    (f.beneath place).diagnostic "" = f.diagnostic (place.renderFrom "") :=
  congrArg (Diagnostic.mk · f.violation) (Pointer.renderFrom_append ..)

/-- What is found in devices stands below their codes. -/
theorem pointers_ofDevices {P : Pointer → Prop} {devices : List (String × Json)}
    (h : ∀ code device, (code, device) ∈ devices →
      ∀ f ∈ (Device.read scope options device).findings, P ("devices" :: code :: f.pointer)) :
    ∀ f ∈ (ofDevices scope options devices).findings, P f.pointer := by
  induction devices with
  | nil => exact nofun
  | cons entry rest ih =>
    obtain ⟨code, device⟩ := entry
    intro f hf
    rw [ofDevices, findings_append, findings_ofDevice] at hf
    rcases List.mem_append.mp hf with hf | hf
    · obtain ⟨g, hg, rfl⟩ := List.mem_map.mp hf
      exact h code device List.mem_cons_self g hg
    · exact ih (fun code device hm => h code device (List.mem_cons_of_mem _ hm)) f hf

/-- What is found in an entry lies at that entry. -/
theorem liesAt_of_mem_diagnostics {code : String} {device : Json} {d : Diagnostic}
    (h : d ∈ (ofDevice scope options code device).diagnostics) :
    Pointer.LiesAt (Pointer.join "/devices" code) d.path := by
  rw [diagnostics, findings_ofDevice] at h
  obtain ⟨f, hf, rfl⟩ := List.mem_map.mp h
  obtain ⟨g, _, rfl⟩ := List.mem_map.mp hf
  rw [diagnostic_beneath]
  exact Pointer.liesAt_renderFrom _ g.pointer

end Conversion
end DeviceTwin
