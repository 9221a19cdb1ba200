import DeviceTwin.Conversion
import DeviceTwin.Proofs.Json.Same

/-!
Interfaces are determined by the JSON they are written as. Absent fields are left out, schemas and
display names carry no mark of their kind, and yet no two interfaces are written the same.
-/
namespace DeviceTwin

open Json

attribute [ext] EnumValue CommandPayload Content Interface

theorem Primitive.name_injective : name.Injective := by
  intro type type' h
  cases type <;> cases type' <;> first | rfl | exact absurd h (by decide)

theorem ContentType.name_injective : name.Injective := by
  intro type type' h
  cases type <;> cases type' <;> first | rfl | exact absurd h (by decide)

theorem CommandType.name_injective : name.Injective := fun .synchronous .synchronous _ => rfl

/-- A text is never the same as an object. -/
theorem DisplayName.faithful_toJson : Faithful toJson := by
  rintro (⟨en, ja⟩ | text) (⟨en', ja'⟩ | text') h
  · have hfields := Same.ofFields h.get? rfl (by simp)
    simp only [List.map, List.forall₂_cons, Option.rel_some_some] at hfields
    obtain ⟨hen, hja, -⟩ := hfields
    rw [faithful_str.option hen, faithful_str _ _ hja]
  · cases h
  · cases h
  · exact congrArg plain (faithful_str _ _ h)

theorem EnumValue.faithful_toJson : Faithful toJson := by
  intro value value' h
  have hfields := Same.ofFields h.get? rfl (by simp)
  simp only [List.map, List.forall₂_cons, Option.rel_some_some] at hfields
  obtain ⟨hname, hvalue, hdisplay, -⟩ := hfields
  have hcode := (faithful_int.comp fun _ _ => Int32.toInt_inj.mp) _ _ hvalue
  exact EnumValue.ext (faithful_str _ _ hname) hcode (DisplayName.faithful_toJson.option hdisplay)

namespace Schema

/-- The mark of a schema that is no primitive tells its kind. -/
theorem type_eq {type type' : String} {rest rest' : List (String × Json)}
    (h : (obj (("@type", .str type) :: rest)).Same (obj (("@type", .str type') :: rest'))) :
    type = type' := by
  have htype := h.get? "@type"
  simp only [get?, List.lookup_cons_self, Option.rel_some_some] at htype
  exact faithful_str _ _ htype

theorem enumeration_eq {type type' : Primitive} {values values' : List EnumValue}
    (h : (toJson (.enumeration type values)).Same (toJson (.enumeration type' values'))) :
    enumeration type values = enumeration type' values' := by
  have hmembers := Same.members h rfl (by simp)
  simp only [List.map, List.forall₂_cons] at hmembers
  obtain ⟨-, htype, hvalues, -⟩ := hmembers
  rw [faithful_str.comp Primitive.name_injective _ _ htype,
    EnumValue.faithful_toJson.list hvalues.items]

mutual

theorem eq_of_same : (schema schema' : Schema) → schema.toJson.Same schema'.toJson →
    schema = schema'
  | .primitive _, .primitive _, h =>
    congrArg primitive (faithful_str.comp Primitive.name_injective _ _ h)
  | .enumeration .., .enumeration .., h => enumeration_eq h
  | .object fields, .object fields', h => by
    have hmembers := Same.members h rfl (by simp)
    simp only [List.map, List.forall₂_cons] at hmembers
    exact congrArg object (fields_eq_of_same fields fields' hmembers.2.1.items)
  | .array, .array, _ => rfl
  -- A text and an object.
  | .primitive _, .enumeration .., h | .primitive _, .object _, h | .primitive _, .array, h
  | .enumeration .., .primitive _, h | .object _, .primitive _, h | .array, .primitive _, h =>
    nomatch h
  -- Objects of different types.
  | .enumeration .., .object _, h | .enumeration .., .array, h | .object _, .enumeration .., h
  | .object _, .array, h | .array, .enumeration .., h | .array, .object _, h =>
    absurd (type_eq h) (by decide)

theorem fields_eq_of_same : (fields fields' : List (Field Schema)) →
    List.Forall₂ Same (fieldsToJson fields) (fieldsToJson fields') → fields = fields'
  | [], [], _ => rfl
  | ⟨name, schema⟩ :: rest, ⟨name', schema'⟩ :: rest', .cons h hrest => by
    have hfield := Same.ofFields h.get? rfl (by simp)
    simp only [List.map, List.forall₂_cons, Option.rel_some_some] at hfield
    obtain ⟨hname, hschema, -⟩ := hfield
    rw [faithful_str.option hname, eq_of_same schema schema' hschema,
      fields_eq_of_same rest rest' hrest]

end

theorem faithful_toJson : Faithful toJson := eq_of_same

end Schema

theorem CommandPayload.faithful_toJson : Faithful toJson := by
  intro payload payload' h
  have hfields := Same.ofFields h.get? rfl (by simp)
  simp only [List.map, List.forall₂_cons, Option.rel_some_some] at hfields
  obtain ⟨hid, hname, hschema, hdisplay, hunit, -⟩ := hfields
  exact CommandPayload.ext (faithful_str _ _ hid) (faithful_str _ _ hname)
    (Schema.faithful_toJson _ _ hschema) (DisplayName.faithful_toJson.option hdisplay)
    (faithful_str.option hunit)

theorem Content.faithful_toJson : Faithful toJson := by
  intro content content' h
  have hfields := Same.ofFields h.get? rfl (by simp)
  simp only [List.map, List.forall₂_cons, Option.rel_some_some] at hfields
  obtain ⟨hid, htype, hcontext, hname, hschema, hdisplay, hcommand, hrequest, hresponse, hunit,
    hwritable, -⟩ := hfields
  exact Content.ext (faithful_str.option hid)
    (faithful_str.comp ContentType.name_injective _ _ htype) (faithful_str _ _ hcontext)
    (faithful_str _ _ hname) (Schema.faithful_toJson.option hschema)
    (DisplayName.faithful_toJson.option hdisplay)
    ((faithful_str.comp CommandType.name_injective).option hcommand)
    (CommandPayload.faithful_toJson.option hrequest)
    (CommandPayload.faithful_toJson.option hresponse) (faithful_str.option hunit)
    (faithful_bool.option hwritable)

theorem Interface.faithful_toJson : Faithful toJson := by
  intro interface interface' h
  have hmembers := Same.members h rfl (by simp)
  simp only [List.map, List.forall₂_cons] at hmembers
  obtain ⟨hid, htype, hcontext, hdisplay, hcontents, -⟩ := hmembers
  exact Interface.ext (faithful_str _ _ hid) (faithful_str _ _ htype) (faithful_str _ _ hcontext)
    (DisplayName.faithful_toJson _ _ hdisplay) (Content.faithful_toJson.list hcontents.items)

/-- Writing loses nothing: lists of interfaces that are written as the same value, which leaves the
order of members open, are equal. -/
theorem Conversion.toJson_same_iff (c c' : Conversion) :
    c.toJson.Same c'.toJson ↔ c.interfaces = c'.interfaces := by
  constructor
  · exact fun h => Interface.faithful_toJson.list h.items
  · intro h
    rw [toJson, toJson, h]
    exact .refl _

end DeviceTwin
