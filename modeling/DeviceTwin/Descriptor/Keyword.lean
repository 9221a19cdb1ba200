/-! Names of the members that a type descriptor can have. -/
namespace DeviceTwin.Descriptor

inductive Keyword where
  | kind
  | size
  | values
  | properties
  | items
  | bitmaps
  | oneOf
  | format
  | reference
  | unit
  | multipleOf
  | minSize
  | maxSize
  | itemSize
  | minItems
  | maxItems
  | base
  | minimum
  | maximum
  | coefficient
  deriving DecidableEq, Repr

namespace Keyword

def name : Keyword → String
  | kind => "type"
  | size => "size"
  | values => "enum"
  | properties => "properties"
  | items => "items"
  | bitmaps => "bitmaps"
  | oneOf => "oneOf"
  | format => "format"
  | reference => "$ref"
  | unit => "unit"
  | multipleOf => "multipleOf"
  | minSize => "minSize"
  | maxSize => "maxSize"
  | itemSize => "itemSize"
  | minItems => "minItems"
  | maxItems => "maxItems"
  | base => "base"
  | minimum => "minimum"
  | maximum => "maximum"
  | coefficient => "coefficient"

def all : List Keyword :=
  [kind, size, values, properties, items, bitmaps, oneOf, format, reference, unit, multipleOf,
    minSize, maxSize, itemSize, minItems, maxItems, base, minimum, maximum, coefficient]

def ofName? (s : String) : Option Keyword := all.find? (·.name = s)

end Keyword
end DeviceTwin.Descriptor
