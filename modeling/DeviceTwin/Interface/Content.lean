import DeviceTwin.Role
import DeviceTwin.Interface.Schema
import DeviceTwin.Options

/-! The contents of an interface, and how a property becomes a content entry. -/
namespace DeviceTwin

inductive CommandType where
  | synchronous
  deriving DecidableEq, Repr

def CommandType.name : CommandType → String
  | synchronous => "synchronous"

/-- Request or response of a command. -/
structure CommandPayload where
  id : String
  name : String
  schema : Schema
  displayName : Option DisplayName := none
  displayUnit : Option String := none

namespace CommandPayload

/-- The payload of a command of this name that carries data of this shape. -/
def make (options : Options) (ja : Option String) (en : String) (shape : Shape) :
    Except Violation CommandPayload := do
  let name := Identifier.ofDisplay Identifier.nameLimit en
  let schema ← Schema.ofShape shape
  return { id := options.urn name, name, schema, displayName := DisplayName.ofLabels ⟨ja, some en⟩,
           displayUnit := shape.attributes.unit }

def toJson (payload : CommandPayload) : Json :=
  .ofFields [("@id", some (.str payload.id)), ("name", some (.str payload.name)),
    ("schema", some payload.schema.toJson),
    ("displayName", payload.displayName.map DisplayName.toJson),
    ("displayUnit", payload.displayUnit.map .str)]

end CommandPayload

/-- An entry of the contents of an interface. -/
structure Content where
  /-- Absent on the commands that stand for single states. -/
  id : Option String := none
  type : ContentType
  context : String
  name : String
  schema : Option Schema := none
  displayName : Option DisplayName := none
  commandType : Option CommandType := none
  request : Option CommandPayload := none
  response : Option CommandPayload := none
  displayUnit : Option String := none
  writable : Option Bool := none

namespace Content

def toJson (content : Content) : Json :=
  .ofFields [("@id", content.id.map .str), ("@type", some (.str content.type.name)),
    ("@context", some (.str content.context)), ("name", some (.str content.name)),
    ("schema", content.schema.map Schema.toJson),
    ("displayName", content.displayName.map DisplayName.toJson),
    ("commandType", content.commandType.map (.str ·.name)),
    ("request", content.request.map CommandPayload.toJson),
    ("response", content.response.map CommandPayload.toJson),
    ("displayUnit", content.displayUnit.map .str), ("writable", content.writable.map .bool)]

/-- The command that puts a device into one state. -/
def stateCommand (options : Options) (entry : StateEntry) : Content :=
  { type := .command
    context := options.context
    name := entry.name
    displayName := DisplayName.ofLabels entry.labels
    commandType := some .synchronous }

/-- The identifier of a content entry. Alternatives, counted from one, are told apart by a number
after the name, which begins with two. -/
def urnAt (options : Options) (index : Nat) (name : String) : String :=
  options.urn (if index = 0 then name else name ++ toString (index + 1))

/-- The entry of a property with a name and a role. -/
def entry (options : Options) (index : Nat) (ja : Option String) (en : String)
    (role : Role) (shape : Shape) : Except Violation Content := do
  let name := Identifier.ofDisplay Identifier.nameLimit en
  let header : Content :=
    { id := some (urnAt options index name)
      type := role.type
      context := options.context
      name
      displayName := DisplayName.ofLabels ⟨ja, some en⟩ }
  match role.type with
  | .command =>
    let payload ← CommandPayload.make options ja en shape
    return { header with
      commandType := some .synchronous, request := some payload, response := some payload }
  | .telemetry =>
    let schema ← Schema.ofShape shape
    return { header with schema := some schema, displayUnit := shape.attributes.unit }
  | .property =>
    let schema ← Schema.ofShape shape
    return { header with
      schema := some schema, displayUnit := shape.attributes.unit,
      writable := some role.writable }

/-- The entries of a property, or of its alternative number `index`. Without an English name there
are none, and a command on states becomes one command for each state. -/
def make (options : Options) (index : Nat) (access : Access) (labels : Labels) (shape : Shape) :
    Except Violation (List Content) :=
  match labels.en with
  | none => .ok []
  | some en => do
    let role ← Role.of access shape
    match role.type, shape.kind with
    | .command, .state entries => return entries.map (stateCommand options)
    | _, _ => return [← entry options index labels.ja en role shape]

end Content

/-- The interface of one device class. -/
structure Interface where
  id : String
  /-- There is one type of documents. -/
  type : String := "Interface"
  context : String
  displayName : DisplayName
  contents : List Content

namespace Interface

/-- The interface of a class with an English name. -/
def make (options : Options) (ja : Option String) (en : String) (contents : List Content) :
    Interface :=
  { id := options.urn (Identifier.ofDisplay Identifier.classLimit en)
    context := options.context
    displayName :=
      match ja with
      | some ja => .localized (some en) ja
      | none => .plain en
    contents }

def toJson (interface : Interface) : Json :=
  .obj [("@id", .str interface.id), ("@type", .str interface.type),
    ("@context", .str interface.context), ("displayName", interface.displayName.toJson),
    ("contents", .arr (interface.contents.map Content.toJson))]

end Interface
end DeviceTwin
