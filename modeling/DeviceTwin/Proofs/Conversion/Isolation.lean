import DeviceTwin.Proofs.Conversion.Emission
import DeviceTwin.Proofs.Device.Replacement

/-!
A property and the rest of the document. Whatever stands in place of a property, the conversion of
everything else remains what it was.
-/
namespace DeviceTwin.Conversion

variable {scope : Scope} {options : Options} {devices before after : List (String × Json)}
  {document device property value : Json} {code : String} {place : Pointer}

/-- `PropertyAt document place property`: a device of the document, or a variant of one, has this
property at this place. -/
def PropertyAt (document : Json) (place : Pointer) (property : Json) : Prop :=
  ∃ devices code device rest, rootMember document "devices" = .ok devices ∧
    (code, device) ∈ devices ∧ Device.PropertyAt device rest property ∧
    place = "devices" :: code :: rest

/-- `DifferAt path old new c c'`: two conversions differ in nothing but what a property at `path`
gives, which is `old` in one of them and `new` in the other. -/
structure DifferAt (path : String) (old new : Noted (List Content)) (c c' : Conversion) : Prop where
  interfaces : Device.SameBut old.value new.value c.interfaces c'.interfaces
  diagnostics : ∃ first last,
    c.diagnostics = first ++ old.findings.map (·.diagnostic path) ++ last ∧
    c'.diagnostics = first ++ new.findings.map (·.diagnostic path) ++ last ∧
    ∀ d ∈ first ++ last, ¬ Pointer.LiesAt path d.path
  /-- What is found in the property lies at its path. -/
  liesAt : ∀ d ∈ (old.findings ++ new.findings).map (·.diagnostic path), Pointer.LiesAt path d.path

/-- What is found in a device lies under the key of the device. -/
theorem not_prefix_of_mem_findings (h : code ∉ Json.keys devices) :
    ∀ f ∈ (ofDevices scope options devices).findings,
      ¬ "devices" :: code :: place <+: f.pointer := by
  refine pointers_ofDevices scope options
    (P := fun pointer => ¬ "devices" :: code :: place <+: pointer)
    fun code' device hm f _ hlies => ?_
  simp only [List.cons_prefix_cons] at hlies
  exact h (hlies.2.1 ▸ mem_keys hm)

section Devices

variable (hbefore : code ∉ Json.keys before) (hafter : code ∉ Json.keys after)
  (h : Surrounds place (fun value => Device.read scope options (Pointer.replace value place device))
    (Device.produce scope options))

/-- The devices, with a value in place of the property. -/
abbrev devicesWith (before after : List (String × Json)) (code : String) (device : Json)
    (place : Pointer) (value : Json) : List (String × Json) :=
  before ++ (code, Pointer.replace value place device) :: after

include hbefore hafter h in
/-- What is found in the devices is what is found in the property, between findings at other
places that do not depend on it. -/
theorem exists_findings_around : ∃ first last : List Finding,
    (∀ f ∈ first ++ last, ¬ "devices" :: code :: place <+: f.pointer) ∧
    ∀ value, (ofDevices scope options (devicesWith before after code device place value)).findings =
      first ++ ((Property.read scope options value).beneath
        ("devices" :: code :: place)).findings ++ last := by
  obtain ⟨a, b, ha, hb, heq⟩ := (h.within code).within "devices"
  refine ⟨(ofDevices scope options before).findings ++ a.findings,
    b.findings ++ (ofDevices scope options after).findings, ?_, fun value => ?_⟩
  · simp only [List.mem_append]
    rintro f ((hf | hf) | (hf | hf))
    · exact not_prefix_of_mem_findings hbefore f hf
    · exact ha f hf
    · exact hb f hf
    · exact not_prefix_of_mem_findings hafter f hf
  · have hdevice : (ofDevice scope options code (Pointer.replace value place device)).findings =
        a.findings ++ ((Property.read scope options value).beneath
          ("devices" :: code :: place)).findings ++ b.findings :=
      congrArg Noted.findings (heq value)
    rw [devicesWith, ofDevices_append, ofDevices, findings_append, findings_append, hdevice]
    simp only [List.append_assoc]

include h in
/-- The contents of the property stand at one place of one interface at most. -/
theorem sameBut_ofDevices (old new : Json) :
    Device.SameBut (Property.read scope options old).value (Property.read scope options new).value
      (ofDevices scope options (devicesWith before after code device place old)).interfaces
      (ofDevices scope options (devicesWith before after code device place new)).interfaces := by
  obtain ⟨a, b, _, _, heq⟩ := h
  have hdevice : ∀ value,
      (ofDevice scope options code (Pointer.replace value place device)).interfaces =
        Device.assemble options
          (a.value ++ [.produced (Property.read scope options value).value] ++ b.value) :=
    fun value => congrArg (Device.assemble options) (congrArg Noted.value (heq value))
  have hsame := Device.sameBut_assemble options a.value b.value
    (Property.read scope options old).value (Property.read scope options new).value
  rw [← hdevice, ← hdevice] at hsame
  have hbetween := hsame.between (ofDevices scope options before).interfaces
    (ofDevices scope options after).interfaces
  simpa only [devicesWith, ofDevices_append, ofDevices, interfaces_append, List.append_assoc] using
    hbetween

include hbefore hafter h in
theorem differAt_ofDevices (old new : Json) :
    DifferAt (Pointer.renderFrom "" ("devices" :: code :: place))
      (Property.read scope options old) (Property.read scope options new)
      (ofDevices scope options (devicesWith before after code device place old))
      (ofDevices scope options (devicesWith before after code device place new)) := by
  obtain ⟨first, last, hother, hfindings⟩ := exists_findings_around hbefore hafter h
  have hdiagnostics : ∀ value,
      (ofDevices scope options (devicesWith before after code device place value)).diagnostics =
        first.map (·.diagnostic "") ++ (Property.read scope options value).findings.map
          (·.diagnostic (Pointer.renderFrom "" ("devices" :: code :: place))) ++
            last.map (·.diagnostic "") := by
    intro value
    simp only [diagnostics, hfindings, List.map_append, Noted.beneath, List.map_map,
      Function.comp_def, diagnostic_beneath]
  refine ⟨sameBut_ofDevices h old new, ⟨_, _, hdiagnostics old, hdiagnostics new, ?_⟩, ?_⟩
  · rw [← List.map_append, List.forall_mem_map]
    exact fun f hf hpath => hother f hf (Pointer.liesAt_render_iff.mp hpath)
  · rw [List.forall_mem_map]
    exact fun f _ => Pointer.liesAt_renderFrom _ f.pointer

end Devices

theorem PropertyAt.resolve? (hkeys : document.hasDistinctKeys)
    (h : PropertyAt document place property) :
    Pointer.resolve? document place = some property := by
  obtain ⟨devices, code, device, rest, hdevices, hdevice, hproperty, rfl⟩ := h
  obtain ⟨root, rfl, hroot⟩ := rootMember_eq_ok_iff.mp hdevices
  have hdevices := (Json.hasDistinctKeys_obj.mp hkeys).2 _ (mem_of_lookup hroot)
  rw [Json.hasDistinctKeys_obj] at hdevices
  rw [Pointer.resolve?, Pointer.child?_obj, hroot, Option.bind_some, Pointer.resolve?,
    Pointer.child?_obj, lookup_of_mem hdevices.1 hdevice, Option.bind_some,
    hproperty.resolve? (hdevices.2 _ hdevice)]

/-- A property stands in one device, and another value for it leaves the other devices and the
definitions as they are. -/
theorem exists_devicesWith (hkeys : document.hasDistinctKeys)
    (h : PropertyAt document place property) :
    ∃ before after code device rest, place = "devices" :: code :: rest ∧
      code ∉ Json.keys before ∧ code ∉ Json.keys after ∧ device.hasDistinctKeys ∧
      Device.PropertyAt device rest property ∧ ∀ value,
        rootMember (Pointer.replace value place document) "devices" =
          .ok (devicesWith before after code device rest value) ∧
        rootMember (Pointer.replace value place document) "definitions" =
          rootMember document "definitions" := by
  obtain ⟨devices, code, device, rest, hdevices, hdevice, hproperty, rfl⟩ := h
  obtain ⟨root, rfl, hroot⟩ := rootMember_eq_ok_iff.mp hdevices
  rw [Json.hasDistinctKeys_obj] at hkeys
  have hdistinct := hkeys.2 _ (mem_of_lookup hroot)
  rw [Json.hasDistinctKeys_obj] at hdistinct
  obtain ⟨before, after, rfl, hbefore, hafter⟩ := exists_split hkeys.1 (mem_of_lookup hroot)
  obtain ⟨before', after', rfl, hbefore', hafter'⟩ := exists_split hdistinct.1 hdevice
  refine ⟨before', after', code, device, rest, rfl, hbefore', hafter', hdistinct.2 _ hdevice,
    hproperty, fun value => ?_⟩
  rw [Pointer.replace, Pointer.mapChild_obj_split hbefore hafter, Pointer.replace,
    Pointer.mapChild_obj_split hbefore' hafter']
  refine ⟨rootMember_eq_ok_iff.mpr ⟨_, rfl, lookup_append_cons hbefore⟩, ?_⟩
  have hne : "definitions" ≠ "devices" := by decide
  simp only [rootMember, Json.get?, lookup_append_cons_of_ne hne]

/-- Another value for a property changes nothing in the conversion of a document but the contents of
one interface, there only those of the property, and the diagnostics at the property. -/
theorem ofDocument_replace (options : Options) (document property value : Json) (place : Pointer)
    (c : Conversion) (hkeys : document.hasDistinctKeys) (hc : ofDocument options document = .ok c)
    (h : PropertyAt document place property) :
    ∃ c' definitions, ofDocument options (Pointer.replace value place document) = .ok c' ∧
      rootMember document "definitions" = .ok definitions ∧
      Pointer.resolve? document place = some property ∧
      Pointer.resolve? (Pointer.replace value place document) place = some value ∧
      DifferAt (place.renderFrom "")
        (Property.read { definitions, maxDepth := options.maxDepth } options property)
        (Property.read { definitions, maxDepth := options.maxDepth } options value) c c' := by
  obtain ⟨definitions, devices, hdefs, hdevices, rfl⟩ := rootMembers_of_ofDocument hc
  have hresolve := h.resolve? hkeys
  obtain ⟨before, after, code, device, rest, rfl, hbefore, hafter, hdevice, hproperty, hroot⟩ :=
    exists_devicesWith hkeys h
  -- The document is the one with the property itself in its place.
  have hself := hroot property
  rw [Pointer.replace_self hkeys hresolve, hdevices, Except.ok.injEq] at hself
  have hdefs' := (hroot value).2.trans hdefs
  refine ⟨_, definitions, ofDocument_eq hdefs' (hroot value).1 options, hdefs, hresolve,
    Pointer.resolve?_replace hresolve, ?_⟩
  rw [hself.1]
  exact differAt_ofDevices hbefore hafter (Device.surrounds_read hdevice hproperty) property value

/-- The place of the only property of the third variant. -/
def variedPlace : Pointer := ["devices", "0x0130", "oneOf", toString 2, "elProperties", "0x81"]

theorem ofDocument_replace_varied :
    variedDocument.hasDistinctKeys ∧
      PropertyAt variedDocument variedPlace (levelProperty "Kept") ∧
      ∃ c c' definitions, ofDocument {} variedDocument = .ok c ∧
        ofDocument {} (Pointer.replace .null variedPlace variedDocument) = .ok c' ∧
        rootMember variedDocument "definitions" = .ok definitions ∧
        DifferAt (variedPlace.renderFrom "")
          (Property.read { definitions, maxDepth := 32 } {} (levelProperty "Kept"))
          (Property.read { definitions, maxDepth := 32 } {} .null) c c' := by
  have hkeys : variedDocument.hasDistinctKeys := by decide
  have hc : ofDocument {} variedDocument =
      .ok (ofDevices { maxDepth := 32 } {} [("0x0130", variedDevice)]) := rfl
  have hproperty : PropertyAt variedDocument variedPlace (levelProperty "Kept") :=
    ⟨_, "0x0130", variedDevice, _, rfl, List.mem_singleton_self _,
      .variant (.tail _ (.head _)) rfl (.own (.head _) (.head _)), rfl⟩
  obtain ⟨c', definitions, hc', hdefs, _, _, h⟩ :=
    ofDocument_replace {} variedDocument (levelProperty "Kept") .null variedPlace _ hkeys hc
      hproperty
  exact ⟨hkeys, hproperty, _, c', definitions, hc, hc', hdefs, h⟩

end DeviceTwin.Conversion
