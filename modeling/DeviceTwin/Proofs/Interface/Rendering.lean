import DeviceTwin.Proofs.Interface.Content
import DeviceTwin.Proofs.Json.Tokens
import DeviceTwin.Proofs.Shape.Height

/-!
Interfaces as JSON can be read back. A schema takes three levels of nesting for every step down in
the shape that it is made for, and the values around it take a fixed number more.
-/
namespace DeviceTwin

variable {n : Nat} {options : Options}

namespace Json

/-- The value of a member can be read back, if there is one. -/
def ReadableField (n : Nat) (value? : Option Json) : Prop :=
  ∀ value, value? = some value → Readable n value

theorem readableField_some {value : Json} (h : Readable n value) :
    ReadableField n (some value) := by
  rintro _ ⟨⟩
  exact h

theorem readableField_map {α : Type} {f : α → Json} {a? : Option α}
    (h : ∀ a, a? = some a → Readable n (f a)) : ReadableField n (a?.map f) := by
  intro value hvalue
  obtain ⟨a, ha, rfl⟩ := Option.map_eq_some_iff.mp hvalue
  exact h a ha

theorem keys_ofFields_sublist (fields : List (String × Option Json)) :
    ((fields.filterMap fun field => field.2.map (field.1, ·)).map (·.1)).Sublist
      (fields.map (·.1)) := by
  induction fields with
  | nil => exact .slnil
  | cons field rest ih =>
    obtain ⟨key, _ | value⟩ := field
    · exact ih.cons key
    · exact ih.cons_cons key

/-- An object of fields under different keys. -/
theorem readable_ofFields {fields : List (String × Option Json)} (hkeys : (fields.map (·.1)).Nodup)
    (h : ∀ field ∈ fields, ReadableField n field.2) : Readable (n + 1) (.ofFields fields) := by
  refine .obj ((keys_ofFields_sublist fields).nodup hkeys) fun member hm => ?_
  obtain ⟨⟨key, value?⟩, hfield, hvalue⟩ := List.mem_filterMap.mp hm
  obtain ⟨value, hsome, rfl⟩ := Option.map_eq_some_iff.mp hvalue
  exact h _ hfield value hsome

end Json

open Json

theorem DisplayName.readable_toJson (name : DisplayName) : Readable (n + 1) name.toJson := by
  cases name with
  | plain text => exact .str
  | localized en ja =>
    refine readable_ofFields (by simp) ?_
    simp only [List.forall_mem_cons]
    exact ⟨readableField_map fun _ _ => .str, readableField_some .str, nofun⟩

theorem EnumValue.readable_toJson (value : EnumValue) : Readable (n + 2) value.toJson := by
  have hmin := value.value.le_toInt
  have hmax := value.value.toInt_lt
  refine readable_ofFields (by simp) ?_
  simp only [List.forall_mem_cons]
  exact ⟨readableField_some .str, readableField_some (.int ⟨by omega, by omega⟩),
    readableField_map fun name _ => name.readable_toJson, nofun⟩

namespace Schema

/-- Every field can be read back and is nested at most `3 * n + 2` deep. -/
def ReadableFields (n : Nat) (fields : List (Field Schema)) : Prop :=
  ∀ json ∈ fieldsToJson fields, Readable (3 * n + 2) json

theorem readable_object {fields : List (Field Schema)} (h : ReadableFields n fields) :
    Readable (3 * n + 4) (toJson (.object fields)) := by
  refine .obj (by simp [keys]) ?_
  simp only [List.forall_mem_cons]
  exact ⟨.str, .arr h, nofun⟩

theorem readable_enumeration (type : Primitive) (values : List EnumValue) :
    Readable (n + 4) (toJson (.enumeration type values)) := by
  refine .obj (by simp [keys]) ?_
  simp only [List.forall_mem_cons]
  refine ⟨.str, .str, .arr fun json hjson => ?_, nofun⟩
  obtain ⟨value, _, rfl⟩ := List.mem_map.mp hjson
  exact value.readable_toJson

theorem readable_array : Readable (n + 1) (toJson .array) := by
  refine .obj (by simp [keys]) ?_
  simp only [List.forall_mem_cons]
  exact ⟨.str, nofun⟩

/-- A field for a part one step down, before the fields of the other parts. -/
theorem yields_readableFields_cons {name : Option String} {x : Except Violation Schema}
    {y : Except Violation (List (Field Schema))} (hn : 0 < n)
    (hx : Yields (fun schema => Readable (3 * (n - 1) + 4) schema.toJson) x)
    (hy : Yields (ReadableFields n) y) :
    Yields (ReadableFields n)
      (x.bind fun schema => y.bind fun fields => .ok ({ name, schema } :: fields)) := by
  refine hx.andThen fun schema hschema => hy.andThen fun fields hfields => yields_ok ?_
  refine List.forall_mem_cons.mpr ⟨readable_ofFields (by simp) ?_, hfields⟩
  simp only [List.forall_mem_cons]
  exact ⟨readableField_map fun _ _ => .str, readableField_some (hschema.mono (by omega)), nofun⟩

mutual

/-- The schema of a shape is nested no deeper than three levels for each step down. -/
theorem readable_ofShape : (shape : Shape) → ∀ n, shape.height ≤ n →
    Yields (fun schema => Readable (3 * n + 4) schema.toJson) (ofShape shape)
  | ⟨kind, _, _, _⟩ => readable_ofKind kind

theorem readable_ofKind : (kind : Kind Shape) → ∀ n, Shape.heightOfKind kind ≤ n →
    Yields (fun schema => Readable (3 * n + 4) schema.toJson) (ofKind kind)
  | .unset | .number none _ => fun _ _ => yields_error _
  | .state _ => fun _ _ => yields_ok (readable_enumeration _ _)
  | .object members => fun n h =>
    yields_map_iff.mpr fun fields hfields =>
      readable_object (readable_ofMembers members n h fields hfields)
  | .array _ => fun _ _ => yields_ok readable_array
  | .bitmap fields => fun n h =>
    yields_map_iff.mpr fun made hmade =>
      readable_object (readable_ofBitFields fields n h made hmade)
  | .oneOf alternatives => fun n h =>
    yields_map_iff.mpr fun fields hfields =>
      readable_object (readable_ofAlternatives alternatives n h fields hfields)
  | .dateTime | .time | .raw | .level | .number (some _) _ | .numericValue _ => fun _ _ =>
    yields_ok .str

theorem readable_ofMembers : (members : List (Member Shape)) →
    ∀ n, Shape.heightOfMembers members ≤ n → Yields (ReadableFields n) (ofMembers members)
  | [] => fun _ _ => yields_ok nofun
  | ⟨_, shape⟩ :: rest => fun n h => by
    obtain ⟨hhead, hrest⟩ := Nat.max_le.mp h
    exact yields_readableFields_cons (by omega) (readable_ofShape shape (n - 1) (by omega))
      (readable_ofMembers rest n hrest)

theorem readable_ofBitFields : (fields : List (BitField Shape)) →
    ∀ n, Shape.heightOfFields fields ≤ n → Yields (ReadableFields n) (ofFields fields)
  | [] => fun _ _ => yields_ok nofun
  | ⟨_, _, _, _, value⟩ :: rest => fun n h => by
    obtain ⟨hhead, hrest⟩ := Nat.max_le.mp h
    exact yields_readableFields_cons (by omega) (readable_ofShape value (n - 1) (by omega))
      (readable_ofBitFields rest n hrest)

theorem readable_ofAlternatives : (alternatives : List Shape) →
    ∀ n, Shape.heightOfAlternatives alternatives ≤ n →
      Yields (ReadableFields n) (ofAlternatives alternatives)
  | [] => fun _ _ => yields_ok nofun
  | shape :: rest => fun n h => by
    obtain ⟨hhead, hrest⟩ := Nat.max_le.mp h
    exact yields_readableFields_cons (by omega) (readable_ofShape shape (n - 1) (by omega))
      (readable_ofAlternatives rest n hrest)

end

end Schema

section Contents

variable {index : Nat} {access : Access} {labels : Labels} {shape : Shape} {role : Role}
  {ja : Option String} {en : String}

theorem CommandPayload.readable_toJson {payload : CommandPayload}
    (h : Readable (n + 1) payload.schema.toJson) : Readable (n + 2) payload.toJson := by
  refine readable_ofFields (by simp) ?_
  simp only [List.forall_mem_cons]
  exact ⟨readableField_some .str, readableField_some .str, readableField_some h,
    readableField_map fun name _ => name.readable_toJson, readableField_map fun _ _ => .str, nofun⟩

namespace Content

/-- The schema and the payloads of the entry can be read back. -/
structure HasReadableData (n : Nat) (content : Content) : Prop where
  schema : ∀ schema, content.schema = some schema → Readable (n + 2) schema.toJson
  request : ∀ payload, content.request = some payload → Readable (n + 2) payload.toJson
  response : ∀ payload, content.response = some payload → Readable (n + 2) payload.toJson

theorem HasReadableData.toJson {content : Content} (h : content.HasReadableData n) :
    Readable (n + 3) content.toJson := by
  refine readable_ofFields (by simp) ?_
  simp only [List.forall_mem_cons]
  exact ⟨readableField_map fun _ _ => .str, readableField_some .str, readableField_some .str,
    readableField_some .str, readableField_map h.schema,
    readableField_map fun name _ => name.readable_toJson, readableField_map fun _ _ => .str,
    readableField_map h.request, readableField_map h.response, readableField_map fun _ _ => .str,
    readableField_map fun _ _ => .bool, nofun⟩

theorem hasReadableData_stateCommand (state : StateEntry) :
    (stateCommand options state).HasReadableData n := ⟨nofun, nofun, nofun⟩

theorem hasReadableData_entry (hheight : shape.height ≤ n) :
    Yields (HasReadableData (3 * n + 3)) (entry options index ja en role shape) := by
  have hschema := Schema.readable_ofShape shape n hheight
  have hpayload : Yields (fun payload => Readable (3 * n + 5) payload.toJson)
      (CommandPayload.make options ja en shape) :=
    hschema.andThen fun schema hschema => yields_ok (CommandPayload.readable_toJson hschema)
  unfold entry
  split
  · refine hpayload.andThen fun payload hpayload => yields_ok ⟨nofun, ?_, ?_⟩
    · rintro _ ⟨⟩
      exact hpayload
    · rintro _ ⟨⟩
      exact hpayload
  · refine hschema.andThen fun schema hschema => yields_ok ⟨?_, nofun, nofun⟩
    rintro _ ⟨⟩
    exact hschema.mono (by omega)
  · refine hschema.andThen fun schema hschema => yields_ok ⟨?_, nofun, nofun⟩
    rintro _ ⟨⟩
    exact hschema.mono (by omega)

/-- Entries are nested six levels deeper than their shape, at three levels for each step. -/
theorem readable_make (hheight : shape.height ≤ n) :
    Yields (fun contents => ∀ content ∈ contents, Readable (3 * n + 6) content.toJson)
      (make options index access labels shape) :=
  yields_make (p := fun content : Content => Readable (3 * n + 6) content.toJson)
    (fun _ _ state _ _ _ => (hasReadableData_stateCommand state).toJson)
    fun _ _ _ content hentry => (hasReadableData_entry hheight content hentry).toJson

end Content

theorem Interface.readable_toJson {interface : Interface}
    (h : ∀ content ∈ interface.contents, Readable n content.toJson) :
    Readable (n + 2) interface.toJson := by
  refine .obj (by simp [keys]) ?_
  simp only [List.forall_mem_cons]
  refine ⟨.str, .str, .str, interface.displayName.readable_toJson, .arr fun json hjson => ?_, nofun⟩
  obtain ⟨content, hcontent, rfl⟩ := List.mem_map.mp hjson
  exact h content hcontent

end Contents

end DeviceTwin
