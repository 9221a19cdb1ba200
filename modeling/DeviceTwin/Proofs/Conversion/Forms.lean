import DeviceTwin.Proofs.Conversion.Origin

/-!
The forms of content entries. The access rules of a property and the kind of its data decide which
fields an entry has: it has one of four forms, and the operations that its form offers are open.
-/
namespace DeviceTwin

/-- The forms that a content entry can have. -/
inductive Form where
  /-- A command that puts a device into one state. -/
  | stateCommand
  /-- A command that carries data. -/
  | payloadCommand
  | telemetry
  | property
  deriving DecidableEq, Repr

/-- The form of an entry of this type that carries data. -/
def ContentType.form : ContentType → Form
  | .command => .payloadCommand
  | .telemetry => .telemetry
  | .property => .property

/-- The operations that are needed for a type, and for being writable, are open. -/
structure Access.Opens (access : Access) (type : ContentType) (writable : Option Bool) : Prop where
  command : type = .command → access.get = .notApplicable ∧ access.set ≠ .notApplicable
  readOnly : type = .telemetry ∨ writable = some false →
    access.set = .notApplicable ∧ access.get ≠ .notApplicable
  writable : writable = some true → access.get ≠ .notApplicable ∧ access.set ≠ .notApplicable

/-- Whether the entry of a role is writable; only properties say so. -/
def Role.writable? (role : Role) : Option Bool :=
  if role.type = .property then some role.writable else none

theorem Role.opens (access : Access) (shape : Shape) :
    Yields (fun role => access.Opens role.type role.writable?) (Role.of access shape) := by
  obtain ⟨get, set, inform⟩ := access
  unfold Role.of
  split
  case h_19 => exact yields_error _
  all_goals
    refine yields_ok ?_
    cases shape.isState <;> constructor <;> simp_all [writable?]

namespace Content

variable {options : Options} {index : Nat} {access : Access} {labels : Labels} {shape : Shape}
  {role : Role} {ja : Option String} {en : String} {content : Content} {form : Form}

/-- The entry has the fields that the form needs, and none that only other forms have. -/
def HasForm (options : Options) (content : Content) : Form → Prop
  | .stateCommand =>
    content.type = .command ∧ content.commandType = some .synchronous ∧
      content.id = none ∧ content.schema = none ∧ content.request = none ∧
      content.response = none ∧ content.displayUnit = none ∧ content.writable = none
  | .payloadCommand =>
    content.type = .command ∧ content.commandType = some .synchronous ∧ content.id.isSome ∧
      (∃ payload, content.request = some payload ∧ content.response = some payload ∧
        payload.name = content.name ∧ payload.id = options.urn content.name) ∧
      content.schema = none ∧ content.displayUnit = none ∧ content.writable = none
  | .telemetry =>
    content.type = .telemetry ∧ content.id.isSome ∧ content.schema.isSome ∧
      content.commandType = none ∧ content.request = none ∧ content.response = none ∧
      content.writable = none
  | .property =>
    content.type = .property ∧ content.id.isSome ∧ content.schema.isSome ∧
      content.writable.isSome ∧ content.commandType = none ∧ content.request = none ∧
      content.response = none

/-- The form of an entry can be told from its type and from whether it has an identifier. -/
def formOf (content : Content) : Form :=
  match content.type with
  | .command => if content.id.isSome then .payloadCommand else .stateCommand
  | .telemetry => .telemetry
  | .property => .property

theorem HasForm.formOf_eq (h : content.HasForm options form) : content.formOf = form := by
  cases form <;> simp_all [HasForm, formOf]

/-- An entry that has a form has no other. -/
theorem HasForm.unique (h : content.HasForm options form) (other : Form) :
    content.HasForm options other ↔ other = form := by
  constructor
  · exact fun hother => hother.formOf_eq.symm.trans h.formOf_eq
  · rintro rfl
    exact h

/-- What an entry tells of the role and the name that it was made for. -/
structure Plays (options : Options) (role : Role) (content : Content) : Prop where
  form : content.HasForm options role.type.form
  type : content.type = role.type
  writable : content.writable = role.writable?

/-- A payload is named for its command. -/
theorem named_payload : Yields (fun payload => payload.name = Identifier.ofDisplay
      Identifier.nameLimit en ∧ payload.id = options.urn (Identifier.ofDisplay
      Identifier.nameLimit en)) (CommandPayload.make options ja en shape) :=
  .bind fun _ => yields_ok ⟨rfl, rfl⟩

theorem entry_plays : Yields (Plays options role) (entry options index ja en role shape) := by
  obtain ⟨type, writable⟩ := role
  cases type with
  | command =>
    refine named_payload.andThen fun payload hpayload => yields_ok ⟨?_, rfl, rfl⟩
    exact ⟨rfl, rfl, rfl, ⟨payload, rfl, rfl, hpayload⟩, rfl, rfl, rfl⟩
  | telemetry =>
    exact .bind fun _ => yields_ok ⟨⟨rfl, rfl, rfl, rfl, rfl, rfl, rfl⟩, rfl, rfl⟩
  | property =>
    exact .bind fun _ => yields_ok ⟨⟨rfl, rfl, rfl, rfl, rfl, rfl, rfl⟩, rfl, rfl⟩

theorem stateCommand_hasForm (options : Options) (state : StateEntry) :
    (stateCommand options state).HasForm options .stateCommand :=
  ⟨rfl, rfl, rfl, rfl, rfl, rfl, rfl, rfl⟩

/-- Every entry that is made has a form, and the access rules open what it offers. -/
theorem make_hasForm : Yields (fun contents => ∀ content ∈ contents,
      (∃ form, content.HasForm options form) ∧ access.Opens content.type content.writable)
    (make options index access labels shape) := by
  apply yields_make (p := fun content : Content =>
    (∃ form, content.HasForm options form) ∧ access.Opens content.type content.writable)
  · -- The command of a state is not writable.
    intro role entries state hrole hcommand hkind
    have hopens : access.Opens role.type role.writable? := Role.opens access shape role hrole
    rw [hcommand, Role.writable?, hcommand] at hopens
    exact ⟨⟨.stateCommand, stateCommand_hasForm options state⟩, hopens⟩
  · intro en role hrole content hentry
    have hplays := entry_plays content hentry
    rw [hplays.type, hplays.writable]
    exact ⟨⟨_, hplays.form⟩, Role.opens access shape role hrole⟩

end Content

/-- Every entry of every interface of a document has exactly one of the four forms, and whenever
entries are made, the access rules open what they offer. -/
theorem Conversion.ofDocument_forms (options : Options) :
    (∀ document c, ofDocument options document = .ok c →
      ∀ interface ∈ c.interfaces, ∀ content ∈ interface.contents,
        ∃ form, ∀ other, content.HasForm options other ↔ other = form) ∧
    ∀ index access labels shape contents,
      Content.make options index access labels shape = .ok contents →
      ∀ content ∈ contents, access.Opens content.type content.writable := by
  constructor
  · intro document c h interface hinterface content hcontent
    obtain ⟨definitions, hmade⟩ := isMade_of_ofDocument h
    obtain ⟨ja, en, contents, rfl, hcontents⟩ := hmade interface hinterface
    obtain ⟨index, access, labels, shape, made, -, hmake, hmem⟩ := hcontents content hcontent
    obtain ⟨⟨form, hform⟩, -⟩ := Content.make_hasForm made hmake content hmem
    exact ⟨form, hform.unique⟩
  · intro index access labels shape contents hmake content hcontent
    exact (Content.make_hasForm contents hmake content hcontent).2

/-- A property of a switch, with its rules for reading, writing and announcing. -/
def switchProperty (name get set inform : String) (data : Json) : Json :=
  .obj [("propertyName", .obj [("en", .str name)]),
    ("accessRule", .obj [("get", .str get), ("set", .str set), ("inf", .str inform)]),
    ("data", data)]

/-- A switch with one property for each form. -/
def switchDocument : Json :=
  .obj [("definitions", .obj []), ("devices", .obj [("0x05FD", .obj [
    ("className", .obj [("en", .str "Switch")]),
    ("elProperties", .obj [
      ("0x80", switchProperty "Operate" "notApplicable" "optional" "notApplicable"
        (.obj [("type", .str "state"),
          ("enum", .arr [.obj [("edt", .str "0x30"), ("state", .obj [("en", .str "On")])]])])),
      ("0x81", switchProperty "Dim" "notApplicable" "required" "optional"
        (.obj [("type", .str "level")])),
      ("0x82", switchProperty "Brightness" "required" "notApplicable" "required"
        (.obj [("type", .str "level")])),
      ("0x83", switchProperty "Timer" "required" "required" "required"
        (.obj [("type", .str "time")]))])])])]

theorem Conversion.ofDocument_forms_switch :
    (∃ c, ofDocument {} switchDocument = .ok c ∧
      c.interfaces.map (fun interface => interface.contents.map (·.formOf)) =
        [[.stateCommand, .payloadCommand, .telemetry, .property]] ∧
      ∀ interface ∈ c.interfaces, ∀ content ∈ interface.contents,
        ∃ form, ∀ other, content.HasForm {} other ↔ other = form) ∧
    ∃ contents, Content.make {} 0 ⟨.required, .required, .required⟩ ⟨none, some "Timer"⟩
        { kind := .time } = .ok contents ∧
      contents.map (·.writable) = [some true] ∧
      ∀ content ∈ contents,
        Access.Opens ⟨.required, .required, .required⟩ content.type content.writable := by
  have hconvert : ofDocument {} switchDocument =
      .ok (ofDevices { maxDepth := 32 } {} (((switchDocument.get? "devices").bind
        Json.members?).getD [])) := rfl
  have hforms := ofDocument_forms {}
  have hopens := hforms.2 0 ⟨.required, .required, .required⟩ ⟨none, some "Timer"⟩ { kind := .time }
  exact ⟨⟨_, hconvert, by decide +kernel, hforms.1 _ _ hconvert⟩, _, rfl, rfl, hopens _ rfl⟩

end DeviceTwin
