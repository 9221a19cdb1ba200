import DeviceTwin.Proofs.Conversion.Devices
import DeviceTwin.Proofs.Location

/-!
Paths of diagnostics as pointers into the document. They lead to what they report, but some go on
behind a reference, and some leave references out, and these lead to nothing in the document.
-/
namespace DeviceTwin.Conversion

/-- The path of every diagnostic is the text of a pointer that is located in the document. It leads
to a value of the document unless it goes on behind a reference, or names an alternative at the data
of a property that is written in a definition. -/
theorem ofDocument_located (options : Options) (document : Json) (c : Conversion)
    (hkeys : document.hasDistinctKeys) (hc : ofDocument options document = .ok c) :
    ∃ definitions, rootMember document "definitions" = .ok definitions ∧
      ∀ d ∈ c.diagnostics, ∃ pointer, Pointer.parse? d.path = some pointer ∧
        Located definitions document pointer ∧
        (Pointer.resolve? document pointer = none ↔
          BeyondReference definitions document pointer ∨
            InlinedAlternative definitions document pointer) := by
  obtain ⟨definitions, devices, hdefs, hdevices, rfl⟩ := rootMembers_of_ofDocument hc
  refine ⟨definitions, hdefs, ?_⟩
  obtain ⟨root, rfl, hroot⟩ := rootMember_eq_ok_iff.mp hdevices
  obtain ⟨_, ⟨⟩, hdefinitions⟩ := rootMember_eq_ok_iff.mp hdefs
  have hvalues := (Json.hasDistinctKeys_obj.mp hkeys).2
  have hdistinct := Json.hasDistinctKeys_obj.mp (hvalues _ (mem_of_lookup hroot))
  have hlocated : ∀ f ∈ (ofDevices { definitions, maxDepth := options.maxDepth } options
      devices).findings, Located definitions (.obj root) f.pointer := by
    refine pointers_ofDevices _ options fun code device hm f hf => ?_
    have hdevice := Device.located_read (hvalues _ (mem_of_lookup hdefinitions))
      (hdistinct.2 _ hm) f hf
    exact .inside hroot (.inside (lookup_of_mem hdistinct.1 hm) hdevice)
  intro d hd
  obtain ⟨f, hf, rfl⟩ := List.mem_map.mp hd
  exact ⟨f.pointer, Pointer.parse?_render f.pointer, hlocated f hf,
    (hlocated f hf).resolve?_eq_none_iff⟩

/-- A property whose data refers to a definition. -/
def linkedProperty (name : String) : Json :=
  .obj [("propertyName", .obj [("en", .str "Linked")]),
    ("accessRule", .obj [("get", .str "required"), ("inf", .str "required")]),
    ("data", .obj [("$ref", .str ("#/definitions/" ++ name))])]

/-- One definition has a member that is unknown, the other an alternative without a schema. -/
def linkedDocument : Json :=
  .obj [("definitions", .obj [
      ("shade", .obj [("type", .str "level"), ("colour", .str "red")]),
      ("choice", .obj [("oneOf", .arr [.obj []])])]),
    ("devices", .obj [("0x0130", .obj [("elProperties", .obj [
      ("0x80", linkedProperty "shade"), ("0x81", linkedProperty "choice")])])])]

theorem ofDocument_located_linked : linkedDocument.hasDistinctKeys ∧
    ∃ c definitions, ofDocument {} linkedDocument = .ok c ∧
      rootMember linkedDocument "definitions" = .ok definitions ∧
      ∀ d ∈ c.diagnostics, ∃ pointer, Pointer.parse? d.path = some pointer ∧
        Located definitions linkedDocument pointer ∧
        (Pointer.resolve? linkedDocument pointer = none ↔
          BeyondReference definitions linkedDocument pointer ∨
            InlinedAlternative definitions linkedDocument pointer) := by
  have hkeys : linkedDocument.hasDistinctKeys := by decide
  obtain ⟨c, hc⟩ : ∃ c, ofDocument {} linkedDocument = .ok c := ⟨_, rfl⟩
  obtain ⟨definitions, h⟩ := ofDocument_located {} linkedDocument c hkeys hc
  exact ⟨hkeys, c, definitions, hc, h⟩

/-- Not every path leads to a value: the member that is unknown stands in the definition, and its
path goes on behind the text of the reference. -/
theorem path_leads_nowhere : linkedDocument.hasDistinctKeys ∧
    ∃ c, ofDocument {} linkedDocument = .ok c ∧ ∃ d ∈ c.diagnostics,
      d.path = "/devices/0x0130/elProperties/0x80/data/$ref/colour" ∧
      ∃ pointer, Pointer.parse? d.path = some pointer ∧
        Pointer.resolve? linkedDocument pointer = none :=
  ⟨by decide, _, rfl,
    ⟨"/devices/0x0130/elProperties/0x80/data/$ref/colour", .unknownMember "colour"⟩, by decide, rfl,
    ["devices", "0x0130", "elProperties", "0x80", "data", "$ref", "colour"], by decide, rfl⟩

/-- An alternative of a definition is reported at the data, which has no alternatives. -/
example : (ofDocument {} linkedDocument).map (fun c => c.diagnostics.map (·.path)) =
    .ok ["/devices/0x0130/elProperties/0x80/data/$ref/colour",
      "/devices/0x0130/elProperties/0x81/data/oneOf/0"] := by
  rfl

end DeviceTwin.Conversion
