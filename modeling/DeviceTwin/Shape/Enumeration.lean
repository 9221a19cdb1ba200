import DeviceTwin.Labels

/-! Enumerations of the values that a property can take. -/
namespace DeviceTwin

/-- Width and sign of a number. -/
inductive NumberFormat where
  | int8
  | int16
  | int32
  | uint8
  | uint16
  | uint32
  deriving DecidableEq, Repr

namespace NumberFormat

def name : NumberFormat → String
  | int8 => "int8"
  | int16 => "int16"
  | int32 => "int32"
  | uint8 => "uint8"
  | uint16 => "uint16"
  | uint32 => "uint32"

def all : List NumberFormat := [int8, int16, int32, uint8, uint16, uint32]

def ofName? (s : String) : Option NumberFormat := all.find? (·.name = s)

def width : NumberFormat → Nat
  | int8 | uint8 => 8
  | int16 | uint16 => 16
  | int32 | uint32 => 32

def isSigned : NumberFormat → Bool
  | int8 | int16 | int32 => true
  | uint8 | uint16 | uint32 => false

/-- The integer that a word of the format stands for. -/
def valueOf (format : NumberFormat) (word : BitVec format.width) : Int :=
  if format.isSigned then word.toInt else word.toNat

end NumberFormat

/-- The values of a number, as words of its format. -/
structure NumberWords where
  format : NumberFormat
  words : List (BitVec format.width)
  deriving DecidableEq, Repr

namespace NumberWords

def values (e : NumberWords) : List Int := e.words.map e.format.valueOf

/-- Reads numbers as words of a format. A fraction is dropped, and a number out of range wraps
around. -/
def read (format : NumberFormat) (items : List Json) : Except Violation NumberWords := do
  let numbers ← items.mapM Json.expectBinary64
  return ⟨format, numbers.map fun x => BitVec.ofInt format.width x.toInt64.toInt⟩

end NumberWords

/-- One state of a property, or one code of a numeric value. -/
structure StateEntry where
  /-- The code that a device sends for it. -/
  code : Int32 := 0
  labels : Labels := {}
  numericValue : Option Binary64 := none
  readOnly : Bool := false
  deriving DecidableEq, Repr

end DeviceTwin
