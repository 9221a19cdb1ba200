import DeviceTwin.Binary64

/-! JSON values. Members of an object keep the order in which they were written. -/
namespace DeviceTwin

/-- A number as written: integers stay exact, every other number is a binary64. -/
inductive Number where
  | int (n : Int)
  | real (x : Binary64)
  deriving DecidableEq, Repr

/-- The binary64 nearest to a number. -/
def Number.toBinary64 : Number → Binary64
  | .int n => .ofInt n
  | .real x => x

inductive Json where
  | null
  | bool (b : Bool)
  | num (n : Number)
  | str (s : String)
  | arr (items : List Json)
  | obj (members : List (String × Json))
  deriving Inhabited, Repr

namespace Json

/-- Name of the kind of a value, as used in messages. -/
def typeName : Json → String
  | null => "null"
  | bool _ => "boolean"
  | num _ => "number"
  | str _ => "string"
  | arr _ => "array"
  | obj _ => "object"

/-- Value of a member, nothing for values without members. -/
def get? (key : String) : Json → Option Json
  | obj members => members.lookup key
  | _ => none

/-- Members of an object. -/
def members? : Json → Option (List (String × Json))
  | obj members => some members
  | _ => none

/-- An object of those members that have a value, in order. -/
def ofFields (fields : List (String × Option Json)) : Json :=
  obj (fields.filterMap fun (key, value?) => value?.map (key, ·))

def int (n : Int) : Json := num (.int n)

end Json

end DeviceTwin
