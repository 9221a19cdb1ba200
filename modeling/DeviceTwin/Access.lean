/-!
Access rules of a property: whether it can be read, written and announced.
-/
namespace DeviceTwin

/-- How far one operation is open on a device. -/
inductive AccessRule where
  /-- The rule was given by an unknown word. -/
  | unknown
  | required
  /-- Required of some configurations of the device. -/
  | requiredByCase
  | optional
  | notApplicable
  deriving DecidableEq, Repr

namespace AccessRule

def name : AccessRule → String
  | unknown => "none"
  | required => "required"
  | requiredByCase => "required_c"
  | optional => "optional"
  | notApplicable => "notApplicable"

/-- The rules that have a word in a device description. -/
def named : List AccessRule := [required, requiredByCase, optional, notApplicable]

def ofName (s : String) : AccessRule := (named.find? (·.name = s)).getD unknown

end AccessRule

/-- The rules for reading, writing and announcing. A rule that is not given does not apply. -/
structure Access where
  get : AccessRule := .notApplicable
  set : AccessRule := .notApplicable
  inform : AccessRule := .notApplicable
  deriving DecidableEq, Repr

def Access.describe (access : Access) : String :=
  "get=" ++ access.get.name ++ " set=" ++ access.set.name ++ " inf=" ++ access.inform.name

end DeviceTwin
