import DeviceTwin.Proofs.Conversion.Origin
import DeviceTwin.Proofs.Interface.Rendering
import DeviceTwin.Proofs.Json.Lexing

/-!
Rendered conversions can be read back. The cap on nested descriptors bounds the nesting of what is
written, and with the cap of the default options it stays below the limit of the reader.
-/
namespace DeviceTwin.Conversion

variable {options : Options} {document : Json} {c : Conversion}

/-- What is written of a conversion is nested three levels deep for each level of descriptors, and
twelve more. -/
theorem readable_toJson (h : ofDocument options document = .ok c) :
    Json.Readable (3 * options.maxDepth + 12) c.toJson := by
  obtain ⟨definitions, hmade⟩ := isMade_of_ofDocument h
  refine .arr fun json hjson => ?_
  obtain ⟨interface, hinterface, rfl⟩ := List.mem_map.mp hjson
  obtain ⟨ja, en, contents, rfl, hcontents⟩ := hmade interface hinterface
  refine Interface.readable_toJson fun content hcontent => ?_
  obtain ⟨index, access, labels, shape, made, hgiven, hmake, hmem⟩ := hcontents content hcontent
  have hread := Content.readable_make hgiven.height_le made hmake content hmem
  exact hread.mono (by simp only; omega)

/-- What is rendered of a conversion, in any layout, is read as the same value. -/
theorem parseDocument_render (hdepth : options.maxDepth ≤ 32)
    (h : ofDocument options document = .ok c) (layout : Json.Layout) :
    parseDocument (c.render layout) = .ok c.toJson := by
  have hreadable : Json.Readable Json.nestingLimit c.toJson :=
    (readable_toJson h).mono (by rw [Json.nestingLimit]; omega)
  rw [parseDocument, render, Json.read?_render hreadable]

/-- Options with characters that are escaped, and others that are not. -/
def quotedOptions : Options :=
  { urnNamespace := "a\"b\\c\n\x01😀", context := "温度/\x7f" }

/-- A lamp with an object of states as its data, and a name in quotes. -/
def quotedDocument : Json :=
  .obj [("definitions", .obj [("power", .obj [("type", .str "state"), ("enum", .arr [
      .obj [("edt", .int 48), ("state", .obj [("ja", .str "点灯\r"), ("en", .str "On")])]])])]),
    ("devices", .obj [("0x0290", .obj [
      ("className", .obj [("ja", .str "照明\t"), ("en", .str "\"Lamp\"")]),
      ("elProperties", .obj [("0x80", .obj [
        ("propertyName", .obj [("en", .str "Status")]),
        ("accessRule", .obj [("get", .str "required"), ("inf", .str "required")]),
        ("data", .obj [("type", .str "object"), ("properties", .arr [
          .obj [("name", .str "\\power"),
            ("element", .obj [("$ref", .str "#/definitions/power")])]])])])])])])]

theorem parseDocument_render_quoted :
    quotedOptions.maxDepth ≤ 32 ∧
      ∃ c, ofDocument quotedOptions quotedDocument = .ok c ∧
        (c.interfaces.map (·.contents.length)) = [1] ∧
        parseDocument (c.render .compact) = .ok c.toJson ∧
        parseDocument (c.render (.indented 2)) = .ok c.toJson := by
  have hdepth : quotedOptions.maxDepth ≤ 32 := by decide
  have hconvert : ofDocument quotedOptions quotedDocument =
      .ok (ofDevices { definitions := ((quotedDocument.get? "definitions").bind
        Json.members?).getD [], maxDepth := 32 } quotedOptions
        (((quotedDocument.get? "devices").bind Json.members?).getD [])) := rfl
  exact ⟨hdepth, _, hconvert, by decide +kernel, parseDocument_render hdepth hconvert _,
    parseDocument_render hdepth hconvert _⟩

end DeviceTwin.Conversion
