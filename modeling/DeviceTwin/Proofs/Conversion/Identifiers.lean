import DeviceTwin.Proofs.Conversion.Origin
import DeviceTwin.Proofs.Interface.Identifiers

/-! Whatever a document contains, the names and identifiers of its interfaces are clean. -/
namespace DeviceTwin.Conversion

/-- Every interface of a document is identified by a clean name of at most 237 characters, and its
entries, their payloads and the values of all enumerations inside have clean names of at most 64. -/
theorem ofDocument_hasCleanNames (options : Options) (document : Json) (c : Conversion)
    (h : ofDocument options document = .ok c) :
    ∀ interface ∈ c.interfaces, interface.HasCleanNames options := by
  obtain ⟨definitions, hmade⟩ := isMade_of_ofDocument h
  intro interface hinterface
  obtain ⟨ja, en, contents, rfl, hcontents⟩ := hmade interface hinterface
  refine ⟨⟨_, rfl, Identifier.isClean_ofDisplay 237 en⟩, fun content hcontent => ?_⟩
  obtain ⟨index, access, labels, shape, made, -, hmake, hmem⟩ := hcontents content hcontent
  exact Content.hasCleanNames_make made hmake content hmem

/-- A heater whose mode has alternatives: states that can only be set, with a code that has no label
and is negative, and an object of states. -/
def heaterDocument : Json :=
  .obj [("definitions", .obj [("mode", .obj [("type", .str "state"), ("enum", .arr [
      .obj [("edt", .str "0xFFFFFFFF")],
      .obj [("edt", .str "0x41"), ("state", .obj [("en", .str "暖房 (auto)")])]])])]),
    ("devices", .obj [("0x0133", .obj [("className", .obj [("en", .str "Heater/暖房")]),
      ("elProperties", .obj [("0xB0", .obj [("propertyName", .obj [("en", .str "Mode °C")]),
        ("accessRule", .obj [("set", .str "optional")]),
        ("data", .obj [("oneOf", .arr [.obj [("$ref", .str "#/definitions/mode")],
          .obj [("type", .str "object"), ("properties", .arr [.obj [("name", .str "raw name"),
            ("element", .obj [("$ref", .str "#/definitions/mode")])]])]])])])])])])]

theorem ofDocument_hasCleanNames_heater :
    ∃ c, ofDocument { urnNamespace := "a:b" } heaterDocument = .ok c ∧
      c.interfaces.map (·.id) = ["urn:a:b:Heater_______:1"] ∧
      c.interfaces.flatMap (·.contents.map fun content => (content.id, content.name)) =
        [(none, "edtffffffff"), (none, "________auto_"),
          (some "urn:a:b:Mode___C3:1", "Mode___C")] ∧
      ∀ interface ∈ c.interfaces, interface.HasCleanNames { urnNamespace := "a:b" } := by
  obtain ⟨c, hc⟩ : ∃ c, ofDocument { urnNamespace := "a:b" } heaterDocument = .ok c := ⟨_, rfl⟩
  refine ⟨c, hc, ?_, ?_, ofDocument_hasCleanNames _ _ c hc⟩
  · cases hc
    decide +kernel
  · cases hc
    decide +kernel

end DeviceTwin.Conversion
