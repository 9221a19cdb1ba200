import DeviceTwin.Shape.Enumeration

/-! The shape of a property's data: a tree of kinds with their attributes. -/
namespace DeviceTwin

/-- The kinds of data, without what belongs to them. -/
inductive Tag where
  | state
  | object
  | dateTime
  | time
  | raw
  | array
  | bitmap
  | level
  | number
  | numericValue
  | oneOf
  deriving DecidableEq, Repr

namespace Tag

def name : Tag → String
  | state => "state"
  | object => "object"
  | dateTime => "date-time"
  | time => "time"
  | raw => "raw"
  | array => "array"
  | bitmap => "bitmap"
  | level => "level"
  | number => "number"
  | numericValue => "numericValue"
  | oneOf => "oneOf"

/-- The kinds that a description can name; alternatives are not named but listed. -/
def named : List Tag :=
  [state, object, dateTime, time, raw, array, bitmap, level, number, numericValue]

def ofName? (s : String) : Option Tag := named.find? (·.name = s)

end Tag

/-- Attributes of a single value. -/
structure Attributes where
  size : Option Int32 := none
  unit : Option String := none
  multipleOf : Option Binary64 := none
  minSize : Option Binary64 := none
  maxSize : Option Binary64 := none
  itemSize : Option Int64 := none
  minItems : Option Int64 := none
  maxItems : Option Int64 := none
  minimum : Option Binary64 := none
  maximum : Option Binary64 := none
  base : Option String := none
  deriving DecidableEq, Repr

/-- A part of an object. -/
structure Member (α : Type) where
  name : Option String := none
  shape : α
  deriving DecidableEq, Repr

/-- A named range of bits. -/
structure BitField (α : Type) where
  name : Option String := none
  description : Labels := {}
  index : Int32 := 0
  mask : Option String := none
  value : α
  deriving DecidableEq, Repr

/-- A kind of data with what belongs to it, over parts of type `α`. -/
inductive Kind (α : Type) where
  | unset
  | state (entries : List StateEntry)
  | object (members : List (Member α))
  | dateTime
  | time
  | raw
  | array (element : Option α)
  | bitmap (fields : List (BitField α))
  | level
  | number (format : Option NumberFormat) (enumeration : Option NumberWords)
  | numericValue (entries : List StateEntry)
  | oneOf (alternatives : List α)
  deriving DecidableEq, Repr

namespace Kind

def tag? {α : Type} : Kind α → Option Tag
  | unset => none
  | state _ => some .state
  | object _ => some .object
  | dateTime => some .dateTime
  | time => some .time
  | raw => some .raw
  | array _ => some .array
  | bitmap _ => some .bitmap
  | level => some .level
  | number .. => some .number
  | numericValue _ => some .numericValue
  | oneOf _ => some .oneOf

end Kind

/-- Name of a kind that may not be known. -/
def Tag.nameOf (tag? : Option Tag) : String := (tag?.map Tag.name).getD "unset"

/-- A node of the tree. -/
structure Shape where
  kind : Kind Shape := .unset
  attributes : Attributes := {}
  /-- Codes of other properties that scale an array. They are kept as they are written. -/
  coefficients : List String := []
  /-- The last reference that was followed for this node. -/
  reference : Option String := none

namespace Shape

def kindName (shape : Shape) : String := Tag.nameOf shape.kind.tag?

def isState (shape : Shape) : Bool := shape.kind.tag? = some .state

instance : Inhabited Shape := ⟨{}⟩

end Shape
end DeviceTwin
