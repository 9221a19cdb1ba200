import DeviceTwin.Proofs.Interface.Content

/-!
Generated names and identifiers. Names are cut off and hold letters, digits and underscores only,
whichever way they are made, and every identifier is a name in the namespace.
-/
namespace DeviceTwin

namespace Identifier

/-- At most `limit` characters, each a letter, a digit or an underscore. -/
structure IsClean (limit : Nat) (name : String) : Prop where
  length_le : name.length ≤ limit
  chars : ∀ c ∈ name.toList, c.isAlphanum ∨ c = '_'

theorem isIdentifierChar_iff {c : Char} : isIdentifierChar c ↔ c.isAlphanum ∨ c = '_' := by
  simp [isIdentifierChar]

theorem isIdentifierChar_of_mem_ofChar {c d : Char} (h : d ∈ ofChar c) : isIdentifierChar d := by
  unfold ofChar at h
  split at h
  · next hc => exact List.mem_singleton.mp h ▸ hc
  · rw [List.eq_of_mem_replicate h]
    decide

theorem isClean_ofDisplay (limit : Nat) (display : String) :
    IsClean limit (ofDisplay limit display) where
  length_le := by
    rw [ofDisplay, String.length_ofList]
    exact List.length_take_le ..
  chars c hc := by
    rw [ofDisplay, String.toList_ofList] at hc
    obtain ⟨source, _, hmem⟩ := List.mem_flatMap.mp (List.mem_of_mem_take hc)
    exact isIdentifierChar_iff.mp (isIdentifierChar_of_mem_ofChar hmem)

theorem isIdentifierChar_of_mem_toDigits {n : Nat} {c : Char} (h : c ∈ Nat.toDigits 16 n) :
    isIdentifierChar c := by
  have hdigit : ∀ digit < 16, isIdentifierChar (Nat.digitChar digit) := by decide
  induction n using Nat.strongRecOn with
  | ind n ih =>
    rcases Nat.lt_or_ge n 16 with hlt | hge
    · rw [Nat.toDigits_of_lt_base hlt, List.mem_singleton] at h
      exact h ▸ hdigit n hlt
    · rw [Nat.toDigits_of_base_le (by decide) hge, List.mem_append, List.mem_singleton] at h
      rcases h with h | rfl
      · exact ih (n / 16) (by omega) h
      · exact hdigit _ (Nat.mod_lt n (by decide))

end Identifier

open Identifier

/-- A state is named by its label, or by at most eight hexadecimal digits of its code. -/
theorem StateEntry.isClean_name (entry : StateEntry) : IsClean 64 entry.name := by
  unfold StateEntry.name
  split
  · exact isClean_ofDisplay 64 _
  · have hlength : (Nat.toDigits 16 entry.code.toUInt32.toNat).length ≤ 8 :=
      (Nat.length_toDigits_le_iff (by decide) (by decide)).mpr entry.code.toUInt32.toNat_lt
    have hchars : ("edt" ++ String.ofList (Nat.toDigits 16 entry.code.toUInt32.toNat)).toList =
        ['e', 'd', 't'] ++ Nat.toDigits 16 entry.code.toUInt32.toNat := by
      rw [String.toList_append, String.toList_ofList, String.toList_ofList]
    refine ⟨?_, fun c hc => ?_⟩
    · rw [← String.length_toList, hchars, List.length_append]
      exact Nat.le_trans (Nat.add_le_add_left hlength 3) (by decide)
    · rw [hchars] at hc
      rcases List.mem_append.mp hc with hc | hc
      · have hletters : ['e', 'd', 't'].all isIdentifierChar = true := rfl
        exact isIdentifierChar_iff.mp (List.all_eq_true.mp hletters c hc)
      · exact isIdentifierChar_iff.mp (isIdentifierChar_of_mem_toDigits hc)

namespace Schema

mutual

/-- The values of all enumerations in a schema, at any depth. -/
def enumValues : Schema → List EnumValue
  | .enumeration _ values => values
  | .object fields => enumValuesOfFields fields
  | .primitive _ | .array => []

def enumValuesOfFields : List (Field Schema) → List EnumValue
  | [] => []
  | ⟨_, schema⟩ :: rest => enumValues schema ++ enumValuesOfFields rest

end

theorem mem_enumValuesOfFields {fields : List (Field Schema)} {value : EnumValue} :
    value ∈ enumValuesOfFields fields ↔ ∃ field ∈ fields, value ∈ field.schema.enumValues := by
  induction fields with
  | nil => simp [enumValuesOfFields]
  | cons field rest ih => simp [enumValuesOfFields, ih]

/-- What holds of the schemas of leaves, and of an object if it holds of its parts. -/
structure FromParts (p : Schema → Prop) : Prop where
  primitive : ∀ type, p (.primitive type)
  states : ∀ entries : List StateEntry, p (.enumeration .integer (entries.map .ofEntry))
  array : p .array
  object : ∀ fields, (∀ field ∈ fields, p field.schema) → p (.object fields)

section OfShape

variable {p : Schema → Prop}

/-- A field for a part before the fields of the other parts. -/
theorem yields_forall_cons {name : Option String} {x : Except Violation Schema}
    {y : Except Violation (List (Field Schema))} (hx : Yields p x)
    (hy : Yields (fun fields => ∀ field ∈ fields, p field.schema) y) :
    Yields (fun fields : List (Field Schema) => ∀ field ∈ fields, p field.schema)
      (x.bind fun schema => y.bind fun fields => .ok ({ name, schema } :: fields)) :=
  hx.andThen fun _ hschema => hy.andThen fun _ hfields =>
    yields_ok (List.forall_mem_cons.mpr ⟨hschema, hfields⟩)

mutual

theorem yields_ofShape (hp : FromParts p) : (shape : Shape) → Yields p (ofShape shape)
  | ⟨kind, _, _, _⟩ => yields_ofKind hp kind

theorem yields_ofKind (hp : FromParts p) : (kind : Kind Shape) → Yields p (ofKind kind)
  | .unset | .number none _ => yields_error _
  | .state entries => yields_ok (hp.states entries)
  | .object members => yields_map_iff.mpr fun fields hfields =>
      hp.object fields (yields_ofMembers hp members fields hfields)
  | .array _ => yields_ok hp.array
  | .bitmap bits => yields_map_iff.mpr fun fields hfields =>
      hp.object fields (yields_ofFields hp bits fields hfields)
  | .oneOf alternatives => yields_map_iff.mpr fun fields hfields =>
      hp.object fields (yields_ofAlternatives hp alternatives fields hfields)
  | .dateTime | .time | .raw | .level | .number (some _) _ | .numericValue _ =>
    yields_ok (hp.primitive _)

theorem yields_ofMembers (hp : FromParts p) : (members : List (Member Shape)) →
    Yields (fun fields => ∀ field ∈ fields, p field.schema) (ofMembers members)
  | [] => yields_ok nofun
  | ⟨_, shape⟩ :: rest => yields_forall_cons (yields_ofShape hp shape) (yields_ofMembers hp rest)

theorem yields_ofFields (hp : FromParts p) : (bits : List (BitField Shape)) →
    Yields (fun fields => ∀ field ∈ fields, p field.schema) (ofFields bits)
  | [] => yields_ok nofun
  | ⟨_, _, _, _, value⟩ :: rest =>
    yields_forall_cons (yields_ofShape hp value) (yields_ofFields hp rest)

theorem yields_ofAlternatives (hp : FromParts p) : (alternatives : List Shape) →
    Yields (fun fields => ∀ field ∈ fields, p field.schema) (ofAlternatives alternatives)
  | [] => yields_ok nofun
  | shape :: rest =>
    yields_forall_cons (yields_ofShape hp shape) (yields_ofAlternatives hp rest)

end

end OfShape

/-- Every value of every enumeration has a clean name. -/
def HasCleanValues (schema : Schema) : Prop :=
  ∀ value ∈ schema.enumValues, IsClean 64 value.name

theorem fromParts_hasCleanValues : FromParts HasCleanValues where
  primitive _ := nofun
  states entries value hvalue := by
    obtain ⟨entry, _, rfl⟩ := List.mem_map.mp hvalue
    exact entry.isClean_name
  array := nofun
  object fields hfields value hvalue := by
    obtain ⟨field, hfield, hmem⟩ := mem_enumValuesOfFields.mp hvalue
    exact hfields field hfield value hmem

end Schema

/-- The identifier of a segment at its first version. -/
def Options.IsUrn (options : Options) (segment id : String) : Prop :=
  id = "urn:" ++ options.urnNamespace ++ ":" ++ segment ++ ":1"

variable {options : Options} {index : Nat} {access : Access} {labels : Labels} {shape : Shape}
  {role : Role} {ja : Option String} {en : String}

/-- The name of a payload is clean, and identifies it. -/
structure CommandPayload.HasCleanNames (options : Options) (payload : CommandPayload) : Prop where
  name : IsClean 64 payload.name
  id : options.IsUrn payload.name payload.id
  values : payload.schema.HasCleanValues

theorem CommandPayload.hasCleanNames_make :
    Yields (HasCleanNames options) (make options ja en shape) :=
  (Schema.yields_ofShape Schema.fromParts_hasCleanValues shape).andThen fun _ hschema =>
    yields_ok ⟨isClean_ofDisplay 64 en, rfl, hschema⟩

namespace Content

/-- What follows the name in an identifier: nothing, or a number from two on. -/
def IsSuffix (suffix : String) : Prop :=
  suffix = "" ∨ ∃ n : Nat, 2 ≤ n ∧ suffix = toString n

/-- The name of the entry is clean and identifies it, and all names inside are clean. -/
structure HasCleanNames (options : Options) (content : Content) : Prop where
  name : IsClean 64 content.name
  id : ∀ id, content.id = some id →
    ∃ suffix, options.IsUrn (content.name ++ suffix) id ∧ IsSuffix suffix
  values : ∀ schema, content.schema = some schema → schema.HasCleanValues
  request : ∀ payload, content.request = some payload → payload.HasCleanNames options
  response : ∀ payload, content.response = some payload → payload.HasCleanNames options

theorem isUrn_urnAt (options : Options) (index : Nat) (name : String) :
    ∃ suffix, options.IsUrn (name ++ suffix) (urnAt options index name) ∧ IsSuffix suffix := by
  unfold urnAt
  split
  · exact ⟨"", by rw [String.append_empty]; rfl, .inl rfl⟩
  · exact ⟨toString (index + 1), rfl, .inr ⟨index + 1, by omega, rfl⟩⟩

theorem hasCleanNames_stateCommand (options : Options) (entry : StateEntry) :
    (stateCommand options entry).HasCleanNames options :=
  ⟨entry.isClean_name, nofun, nofun, nofun, nofun⟩

theorem hasCleanNames_entry :
    Yields (HasCleanNames options) (entry options index ja en role shape) := by
  have hname := isClean_ofDisplay 64 en
  have hid : ∀ id, some (urnAt options index (ofDisplay 64 en)) = some id →
      ∃ suffix, options.IsUrn (ofDisplay 64 en ++ suffix) id ∧ IsSuffix suffix := by
    rintro _ ⟨⟩
    exact isUrn_urnAt options index _
  have hschema := Schema.yields_ofShape Schema.fromParts_hasCleanValues shape
  unfold entry
  split
  · refine CommandPayload.hasCleanNames_make.andThen fun payload hpayload => yields_ok ?_
    refine ⟨hname, hid, nofun, ?_, ?_⟩
    · rintro _ ⟨⟩
      exact hpayload
    · rintro _ ⟨⟩
      exact hpayload
  · refine hschema.andThen fun schema hschema => yields_ok ⟨hname, hid, ?_, nofun, nofun⟩
    rintro _ ⟨⟩
    exact hschema
  · refine hschema.andThen fun schema hschema => yields_ok ⟨hname, hid, ?_, nofun, nofun⟩
    rintro _ ⟨⟩
    exact hschema

theorem hasCleanNames_make :
    Yields (fun contents => ∀ content ∈ contents, content.HasCleanNames options)
      (make options index access labels shape) :=
  yields_make (fun _ _ entry _ _ _ => hasCleanNames_stateCommand options entry)
    fun _ _ _ => hasCleanNames_entry

end Content

/-- The interface is identified by a clean name, and its entries have clean names. -/
structure Interface.HasCleanNames (options : Options) (interface : Interface) : Prop where
  id : ∃ segment, options.IsUrn segment interface.id ∧ IsClean 237 segment
  contents : ∀ content ∈ interface.contents, content.HasCleanNames options

end DeviceTwin
