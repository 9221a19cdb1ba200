import Mathlib.Data.List.Nodup
import DeviceTwin.Property
import DeviceTwin.Proofs.Interface.Content
import DeviceTwin.Proofs.Notes

/-!
Alternatives of a property. Each of them gives contents of its own, or one violation, whatever
becomes of the others; the numbers behind the names tell their identifiers apart.
-/
namespace DeviceTwin

/-- Numerals determine their numbers. -/
theorem toString_nat_injective : Function.Injective (toString : Nat → String) := by
  intro m n h
  have hdigits : Nat.toDigits 10 m = Nat.toDigits 10 n := by
    rw [← Nat.toList_repr, ← Nat.toList_repr]
    exact congrArg String.toList h
  rw [← Nat.ofDigitChars_ten_toDigits (n := m), hdigits, Nat.ofDigitChars_ten_toDigits]

theorem Options.urn_injective (options : Options) : Function.Injective options.urn := by
  intro name name' h
  rw [urn, urn, String.append_left_inj, String.append_right_inj] at h
  exact h

namespace Property

/-- What the alternative at a position gives. The rest of the property is not looked at. -/
def block (options : Options) (labels : Labels) (access : Access) (i : Nat) (alternative : Shape) :
    Except Violation (List Content) :=
  Content.make options (i + 1) access labels alternative

def made : Except Violation (List Content) → List Content
  | .ok contents => contents
  | .error _ => []

def failure? : Except Violation (List Content) → Option Violation
  | .ok _ => none
  | .error violation => some violation

/-- The identifier of the alternative at a position, under an English name. -/
def alternativeId (options : Options) (en : String) (i : Nat) : String :=
  options.urn (Identifier.ofDisplay Identifier.nameLimit en ++ toString (i + 2))

/-- `Splits options access en i alternative block`: the block is right for the alternative at this
position of a property with these access rules and this English name. -/
inductive Splits (options : Options) (access : Access) (en : String) (i : Nat)
    (alternative : Shape) : Except Violation (List Content) → Prop
  | unclassified {v} (h : Role.of access alternative = .error v) :
    Splits options access en i alternative (.error v)
  | unsupported {role v} (hrole : Role.of access alternative = .ok role)
      (h : Schema.ofShape alternative = .error v) :
    Splits options access en i alternative (.error v)
  | states {role entries contents} (hrole : Role.of access alternative = .ok role)
      (hcommand : role.type = .command) (hkind : alternative.kind = .state entries)
      (hlength : contents.length = entries.length)
      (hids : ∀ content ∈ contents, content.id = none) :
    Splits options access en i alternative (.ok contents)
  | single {role schema content} (hrole : Role.of access alternative = .ok role)
      (hother : ¬ (role.type = .command ∧ ∃ entries, alternative.kind = .state entries))
      (hschema : Schema.ofShape alternative = .ok schema)
      (hid : content.id = some (alternativeId options en i)) :
    Splits options access en i alternative (.ok [content])

variable {options : Options} {property : Property} {access : Access} {labels : Labels}
  {ja : Option String} {en path : String} {i index position : Nat} {role : Role} {v : Violation}
  {schema : Schema} {shape alternative : Shape} {shapes alternatives : List Shape}

theorem alternativeId_injective (options : Options) (en : String) :
    Function.Injective (alternativeId options en) := by
  intro i j h
  have hname := options.urn_injective h
  rw [String.append_right_inj] at hname
  exact Nat.add_right_cancel (toString_nat_injective hname)

theorem entry_of_error (h : Schema.ofShape shape = .error v) :
    Content.entry options index ja en role shape = .error v := by
  unfold Content.entry
  split <;> simp only [CommandPayload.make, h] <;> rfl

theorem exists_entry_of_ok (options : Options) (i : Nat) (ja : Option String) (en : String)
    (role : Role) (h : Schema.ofShape shape = .ok schema) :
    ∃ content, Content.entry options (i + 1) ja en role shape = .ok content ∧
      content.id = some (alternativeId options en i) := by
  unfold Content.entry
  split <;> simp only [CommandPayload.make, h] <;> exact ⟨_, rfl, rfl⟩

theorem splits_block (options : Options) (access : Access) (i : Nat) (alternative : Shape)
    (hen : labels.en = some en) :
    Splits options access en i alternative (block options labels access i alternative) := by
  rw [block, Content.make, hen]
  cases hrole : Role.of access alternative with
  | error v => exact .unclassified hrole
  | ok role =>
    simp only [bind, Except.bind]
    split
    · next entries hcommand hkind =>
      refine .states hrole hcommand hkind (List.length_map _) fun content hcontent => ?_
      obtain ⟨entry, -, rfl⟩ := List.mem_map.mp hcontent
      rfl
    · next hother =>
      cases hschema : Schema.ofShape alternative with
      | error v =>
        rw [entry_of_error hschema]
        exact .unsupported hrole hschema
      | ok schema =>
        obtain ⟨content, hentry, hid⟩ := exists_entry_of_ok options i labels.ja en role hschema
        rw [hentry]
        refine .single hrole ?_ hschema hid
        rintro ⟨hcommand, entries, hkind⟩
        exact hother entries hcommand hkind

/-- At most one entry of a block is identified, by the position of the block. -/
theorem Splits.ids_sublist {contents : Except Violation (List Content)}
    (h : Splits options access en i alternative contents) :
    ((made contents).filterMap (·.id)).Sublist [alternativeId options en i] := by
  cases h with
  | unclassified | unsupported => exact List.nil_sublist _
  | states _ _ _ _ hids =>
    rw [made, List.filterMap_eq_nil_iff.mpr hids]
    exact List.nil_sublist _
  | single _ _ _ hid => simp [made, hid]

theorem contentsOf_eq_block : contentsOf options property (i + 1) alternative =
    ⟨made (block options property.labels property.access i alternative),
      (failure? (block options property.labels property.access i alternative)).toList.map
        (Finding.mk [])⟩ := by
  rw [contentsOf, block]
  cases Content.make options (i + 1) property.access property.labels alternative <;> rfl

theorem value_alternativeContents :
    (alternativeContents options property position shapes).value =
      (shapes.zipIdx position).flatMap fun (shape, i) =>
        made (block options property.labels property.access i shape) := by
  induction shapes generalizing position with
  | nil => rfl
  | cons shape rest ih =>
    rw [alternativeContents, List.zipIdx_cons, List.flatMap_cons, ← ih, contentsOf_eq_block]
    rfl

theorem findings_alternativeContents :
    (alternativeContents options property position shapes).findings =
      (shapes.zipIdx position).filterMap fun (shape, i) =>
        (failure? (block options property.labels property.access i shape)).map
          (Finding.mk [toString i]) := by
  induction shapes generalizing position with
  | nil => rfl
  | cons shape rest ih =>
    simp only [alternativeContents, List.zipIdx_cons, List.filterMap_cons, ← ih,
      contentsOf_eq_block]
    cases failure? (block options property.labels property.access position shape) <;> rfl

theorem ids_alternativeContents (options : Options) (position : Nat) (shapes : List Shape)
    (hen : property.labels.en = some en) :
    ((alternativeContents options property position shapes).value.filterMap (·.id)).Sublist
      ((List.range' position shapes.length).map (alternativeId options en)) := by
  induction shapes generalizing position with
  | nil => exact List.nil_sublist _
  | cons shape rest ih =>
    have hfirst := (splits_block options property.access position shape hen).ids_sublist
    rw [alternativeContents, List.filterMap_append, List.length_cons, List.range'_succ,
      List.map_cons, contentsOf_eq_block]
    exact hfirst.append (ih (position + 1))

/-- The alternatives of the data of a property with an English name: their contents follow one
another, each that fails is reported once at its path, each block is the one for its alternative,
and no identifier is given twice. -/
theorem contents_alternatives (options : Options) (path : String)
    (hen : property.labels.en = some en) (hkind : property.shape.kind = .oneOf alternatives) :
    (property.contents options).value = (alternatives.zipIdx.flatMap fun (alternative, i) =>
        made (block options property.labels property.access i alternative)) ∧
    (property.contents options).findings.map (·.diagnostic path) =
      (alternatives.zipIdx.filterMap fun (alternative, i) =>
        (failure? (block options property.labels property.access i alternative)).map
          (Diagnostic.mk (Pointer.join (Pointer.join (Pointer.join path "data") "oneOf")
            (toString i)))) ∧
    (∀ i alternative, Splits options property.access en i alternative
      (block options property.labels property.access i alternative)) ∧
    ((property.contents options).value.filterMap (·.id)).Nodup := by
  have hcontents : property.contents options =
      ((alternativeContents options property 0 alternatives).within "oneOf").within "data" := by
    rw [contents, hkind]
  refine ⟨?_, ?_, fun i alternative => splits_block options _ i alternative hen, ?_⟩
  · rw [hcontents]
    exact value_alternativeContents
  · rw [hcontents]
    simp only [Noted.within, findings_alternativeContents, List.map_filterMap, Option.map_map]
    rfl
  · have hids := ids_alternativeContents options 0 alternatives hen
    have hnodup := (List.nodup_range' (s := 0) (n := alternatives.length)).map
      (alternativeId_injective options en)
    rw [hcontents]
    exact hnodup.sublist hids

/-- A mode that is set to a level or to one of two states; the last alternative fails. -/
def modeProperty : Property where
  labels := { en := some "Mode" }
  access := { set := .optional }
  shape :=
    { kind := .oneOf
        [{ kind := .level }, { kind := .state [{ code := 48 }, { code := 49 }] }, {}] }

theorem contents_alternatives_mode :
    ((modeProperty.contents {}).value.map (·.id) =
      [some "urn:EchonetLite:Mode2:1", none, none]) ∧
    (modeProperty.contents {}).findings.map (·.diagnostic "/p") =
      [⟨"/p/data/oneOf/2", .unsupportedShape "unset"⟩] := by
  obtain ⟨hvalue, hfindings, -, -⟩ :=
    @contents_alternatives modeProperty "Mode" _ {} "/p" rfl rfl
  rw [hvalue, hfindings]
  constructor
  · decide
  · decide

end Property
end DeviceTwin
