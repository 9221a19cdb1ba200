import DeviceTwin.Shape.Basic
import DeviceTwin.Text.Identifier

/-! Schemas of the values in an interface, and how shapes become schemas. -/
namespace DeviceTwin

/-- A name for people: in English, or in Japanese with the English name beside it if there is
one. -/
inductive DisplayName where
  | localized (en : Option String) (ja : String)
  | plain (text : String)
  deriving DecidableEq, Repr

namespace DisplayName

def ofLabels : Labels → Option DisplayName
  | ⟨some ja, en⟩ => some (.localized en ja)
  | ⟨none, some en⟩ => some (.plain en)
  | ⟨none, none⟩ => none

def toJson : DisplayName → Json
  | localized en ja => .ofFields [("en", en.map .str), ("ja", some (.str ja))]
  | plain text => .str text

end DisplayName

inductive Primitive where
  | integer
  | long
  | datetime
  | time
  | string
  deriving DecidableEq, Repr

def Primitive.name : Primitive → String
  | integer => "integer"
  | long => "long"
  | datetime => "datetime"
  | time => "time"
  | string => "string"

structure EnumValue where
  name : String
  value : Int32
  displayName : Option DisplayName := none
  deriving DecidableEq, Repr

/-- A part of an object schema. -/
structure Schema.Field (α : Type) where
  name : Option String := none
  schema : α
  deriving DecidableEq, Repr

inductive Schema where
  | primitive (type : Primitive)
  | enumeration (valueSchema : Primitive) (values : List EnumValue)
  | object (fields : List (Schema.Field Schema))
  /-- Schemas of items are not written. -/
  | array

/-- The identifier of a state: its English label, or its code in hexadecimal. -/
def StateEntry.name (entry : StateEntry) : String :=
  match entry.labels.en with
  | some label => Identifier.ofDisplay Identifier.nameLimit label
  | none => "edt" ++ String.ofList (Nat.toDigits 16 entry.code.toUInt32.toNat)

def EnumValue.ofEntry (entry : StateEntry) : EnumValue :=
  { name := entry.name, value := entry.code, displayName := DisplayName.ofLabels entry.labels }

def EnumValue.toJson (value : EnumValue) : Json :=
  .ofFields [("name", some (.str value.name)), ("enumValue", some (.int value.value.toInt)),
    ("displayName", value.displayName.map DisplayName.toJson)]

namespace Schema

/-- The schema of a number of a format. -/
def ofFormat : NumberFormat → Primitive
  | .uint32 => .long
  | _ => .integer

mutual

/-- The schema of a shape. Data of unknown kind and numbers without a format have none, and
neither has anything that contains them, arrays apart. -/
def ofShape : Shape → Except Violation Schema
  | ⟨kind, _, _, _⟩ => ofKind kind

def ofKind : Kind Shape → Except Violation Schema
  | .unset => .error (.unsupportedShape "unset")
  | .state entries => .ok (.enumeration .integer (entries.map .ofEntry))
  | .object members => (ofMembers members).map .object
  | .dateTime => .ok (.primitive .datetime)
  | .time => .ok (.primitive .time)
  | .raw => .ok (.primitive .string)
  | .array _ => .ok .array
  | .bitmap fields => (ofFields fields).map .object
  | .level => .ok (.primitive .integer)
  | .number none _ => .error (.unsupportedShape "number")
  | .number (some format) _ => .ok (.primitive (ofFormat format))
  | .numericValue _ => .ok (.primitive .integer)
  | .oneOf alternatives => (ofAlternatives alternatives).map .object

def ofMembers : List (Member Shape) → Except Violation (List (Schema.Field Schema))
  | [] => .ok []
  | ⟨name, shape⟩ :: rest => do
    let schema ← ofShape shape
    return { name, schema } :: (← ofMembers rest)

def ofFields : List (BitField Shape) → Except Violation (List (Schema.Field Schema))
  | [] => .ok []
  | ⟨name, _, _, _, value⟩ :: rest => do
    let schema ← ofShape value
    return { name, schema } :: (← ofFields rest)

def ofAlternatives : List Shape → Except Violation (List (Schema.Field Schema))
  | [] => .ok []
  | shape :: rest => do
    let schema ← ofShape shape
    return { schema } :: (← ofAlternatives rest)

end

mutual

def toJson : Schema → Json
  | .primitive type => .str type.name
  | .enumeration valueSchema values =>
    .obj [("@type", .str "Enum"), ("valueSchema", .str valueSchema.name),
      ("enumValues", .arr (values.map EnumValue.toJson))]
  | .object fields => .obj [("@type", .str "Object"), ("fields", .arr (fieldsToJson fields))]
  | .array => .obj [("@type", .str "Array")]

def fieldsToJson : List (Schema.Field Schema) → List Json
  | [] => []
  | ⟨name, schema⟩ :: rest =>
    .ofFields [("name", name.map .str), ("schema", some (toJson schema))] :: fieldsToJson rest

end

end Schema
end DeviceTwin
