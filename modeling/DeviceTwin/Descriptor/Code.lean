import DeviceTwin.Shape.Basic
import DeviceTwin.Text.LeadingInteger

/-! The parts of a descriptor that hold no further descriptors: states, codes and bit positions. -/
namespace DeviceTwin.Descriptor

/-- What follows `0x`, in either case. -/
def hexDigits? (s : String) : Option String :=
  match s.toList with
  | '0' :: 'x' :: rest | '0' :: 'X' :: rest => some (String.ofList rest)
  | _ => none

/-- The code that a string spells, hexadecimal after `0x` and decimal otherwise. -/
def codeOfText (s : String) : Int32 :=
  match hexDigits? s with
  | some digits => LeadingInteger.low32 16 digits
  | none => LeadingInteger.low32 10 s

/-- A 32-bit integer given as a number or, by `ofText`, as a string. -/
def integerOf (ofText : String → Int32) : Json → Except Violation Int32
  | .str s => .ok (ofText s)
  | .num n => .ok n.toBinary64.toInt32
  | other => .error (.unexpectedType "number or string" other.typeName)

/-- The code of a state. -/
def readCode : Json → Except Violation Int32 := integerOf codeOfText

/-- The size of a value in bytes. -/
def readSize : Json → Except Violation Int32 := integerOf (LeadingInteger.low32 10)

/-- Takes one member of a state. -/
def takeEntry (entry : StateEntry) (key : String) (value : Json) : Taken StateEntry :=
  .ofExcept entry <|
    match key with
    | "edt" => (readCode value).map fun code => { entry with code }
    | "state" => (Labels.read value).map fun labels => { entry with labels }
    | "numericValue" => value.expectBinary64.map fun x => { entry with numericValue := some x }
    | "readOnly" => value.expectBool.map fun readOnly => { entry with readOnly }
    | key => .error (.unknownMember key)

def readEntries (items : List Json) : Noted (List StateEntry) :=
  readItems (readRecord takeEntry {}) 0 items

/-- The first bit of a field and the mask that selects it. -/
structure BitPosition where
  index : Int32 := 0
  mask : Option String := none
  deriving DecidableEq, Repr

/-- Reads a bit position; other members are not looked at. -/
def BitPosition.read (value : Json) : Except Violation BitPosition := do
  let members ← value.expectObject
  let index ← match members.lookup "index" with
    | none => .ok 0
    | some index => index.expectBinary64.map Binary64.toInt32
  let mask ← Json.optionalString members "bitMask"
  return { index, mask }

end DeviceTwin.Descriptor
