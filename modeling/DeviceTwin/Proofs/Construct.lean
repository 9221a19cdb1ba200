import DeviceTwin.Json.Basic

/-! The constructs that a device description is made of, and which of them stands where. -/
namespace DeviceTwin

inductive Construct where
  | document
  | definitions
  | devices
  /-- A device or a variant of one. -/
  | device
  | properties
  /-- A property or a variant of one. -/
  | property
  | rules
  | labels
  | descriptor
  /-- A state, or a code of a numeric value. -/
  | entry
  /-- A part of an object. -/
  | part
  /-- A field of a bitmap. -/
  | field
  | position
  | list (item : Construct)
  /-- A value without constructs inside. -/
  | plain
  deriving DecidableEq, Repr

namespace Construct

/-- What stands under a member. -/
def member : Construct → String → Construct
  | document, "definitions" => definitions
  | document, "devices" => devices
  | definitions, _ => descriptor
  | devices, _ => device
  | device, "className" => labels
  | device, "elProperties" => properties
  | device, "oneOf" => list device
  | properties, _ => property
  | property, "propertyName" => labels
  | property, "accessRule" => rules
  | property, "data" => descriptor
  | property, "oneOf" => list property
  | descriptor, "enum" => list entry
  | descriptor, "properties" => list part
  | descriptor, "items" => descriptor
  | descriptor, "bitmaps" => list field
  | descriptor, "oneOf" => list descriptor
  | entry, "state" => labels
  | part, "element" => descriptor
  | field, "descriptions" => labels
  | field, "position" => position
  | field, "value" => descriptor
  | _, _ => plain

def item : Construct → Construct
  | list item => item
  | _ => plain

/-- The constructs whose members can be given in any order. -/
def isUnordered : Construct → Bool
  | definitions | property | rules | labels | entry | part | field | position => true
  | _ => false

end Construct
end DeviceTwin
