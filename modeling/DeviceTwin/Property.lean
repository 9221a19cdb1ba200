import DeviceTwin.Descriptor.Reading
import DeviceTwin.Interface.Content

/-! Properties of a device, and the contents that they give to an interface. -/
namespace DeviceTwin

structure Property where
  labels : Labels := {}
  access : Access := {}
  shape : Shape := {}

namespace Property

/-- The contents for one shape of the property. A violation leaves out only these. -/
def contentsOf (options : Options) (property : Property) (index : Nat) (shape : Shape) :
    Noted (List Content) :=
  match Content.make options index property.access property.labels shape with
  | .ok contents => ⟨contents, []⟩
  | .error violation => .refused [] violation

/-- The contents for alternatives, the first of which stands at `position`. -/
def alternativeContents (options : Options) (property : Property) (position : Nat) :
    List Shape → Noted (List Content)
  | [] => ⟨[], []⟩
  | shape :: rest =>
    let first := (contentsOf options property (position + 1) shape).within (toString position)
    let later := alternativeContents options property (position + 1) rest
    ⟨first.value ++ later.value, first.findings ++ later.findings⟩

/-- The contents of a property; every alternative of its data has contents of its own. -/
def contents (options : Options) (property : Property) : Noted (List Content) :=
  match property.shape.kind with
  | .oneOf alternatives =>
    ((alternativeContents options property 0 alternatives).within "oneOf").within "data"
  | _ => contentsOf options property 0 property.shape

/-- Takes one access rule. -/
def takeRule (access : Access) (key : String) (value : Json) : Taken Access :=
  .ofExcept access do
    let rule := AccessRule.ofName (← value.expectString)
    match key with
    | "get" => return { access with get := rule }
    | "set" => return { access with set := rule }
    | "inf" => return { access with inform := rule }
    | key => .error (.unknownMember key)

/-- A property that is being read, with the contents of its variants. -/
structure Draft where
  property : Property := {}
  hasVariants : Bool := false
  contents : List Content := []

/-- Takes the names of the property. -/
def Draft.takeLabels (draft : Draft) (value : Json) : Taken Draft :=
  .ofExcept draft <| (Labels.read value).map fun labels =>
    { draft with property := { draft.property with labels } }

/-- Takes the access rules; those that are not given do not apply. -/
def Draft.takeAccess (draft : Draft) (value : Json) : Taken Draft :=
  match value.expectObject with
  | .error violation => .refused draft violation
  | .ok members =>
    .store draft (readMembers takeRule {} members) fun access =>
      .ok { draft with property := { draft.property with access } }

/-- Takes the descriptor of the data. -/
def Draft.takeData (scope : Scope) (draft : Draft) (value : Json) : Taken Draft :=
  match value.expectObject with
  | .error violation => .refused draft violation
  | .ok _ =>
    .store draft (Descriptor.read scope value) fun shape =>
      .ok { draft with property := { draft.property with shape } }

/-- Takes a member other than variants. Some are only checked. -/
def Draft.takeMember (scope : Scope) (draft : Draft) (key : String) (value : Json) : Taken Draft :=
  match key with
  | "propertyName" => draft.takeLabels value
  | "accessRule" => draft.takeAccess value
  | "data" => draft.takeData scope value
  | "validRelease" | "note" => .ofExcept draft (value.expectObject.map fun _ => draft)
  | "atomic" => .ofExcept draft (value.expectString.map fun _ => draft)
  | key => .refused draft (.unknownMember key)

/-- Takes the contents of the variants. -/
def Draft.takeVariants (draft : Draft) (variants : Noted (List Content)) : Taken Draft :=
  .store draft variants fun contents =>
    .ok { draft with hasVariants := true, contents := draft.contents ++ contents }

/-- All contents, those of the variants first. A mere wrapper around variants has none itself. -/
def Draft.finish (options : Options) (draft : Noted Draft) : Noted (List Content) :=
  let ⟨⟨property, hasVariants, variants⟩, findings⟩ := draft
  if hasVariants && property.shape.kind.tag?.isNone then ⟨variants, findings⟩
  else
    let own := property.contents options
    ⟨variants ++ own.value, findings ++ own.findings⟩

mutual

/-- Reads a property as the contents that it gives. -/
def read (scope : Scope) (options : Options) : Json → Noted (List Content)
  | .obj members => Draft.finish options (readDraft scope options {} members)
  | other => .refused [] (.unexpectedType "object" other.typeName)

/-- Takes the members of a property in order. -/
def readDraft (scope : Scope) (options : Options) (draft : Draft) :
    List (String × Json) → Noted Draft
  | [] => ⟨draft, []⟩
  | (key, value) :: rest =>
    let taken :=
      if key = "oneOf" then
        match value with
        | .arr variants => draft.takeVariants (readVariants scope options 0 variants)
        | other => .refused draft (.unexpectedType "array" other.typeName)
      else draft.takeMember scope key value
    let later := readDraft scope options taken.record rest
    ⟨later.value, taken.findingsUnder key ++ later.findings⟩

/-- Reads variants, each a property of its own; the first of them stands at `position`. -/
def readVariants (scope : Scope) (options : Options) (position : Nat) :
    List Json → Noted (List Content)
  | [] => ⟨[], []⟩
  | variant :: rest =>
    let first := (read scope options variant).within (toString position)
    let later := readVariants scope options (position + 1) rest
    ⟨first.value ++ later.value, first.findings ++ later.findings⟩

end

end Property
end DeviceTwin
