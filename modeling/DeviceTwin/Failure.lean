/-! Failures that end a run without a result. -/
namespace DeviceTwin

inductive Failure where
  | fileNotFound (path : String)
  | unreadable (path reason : String)
  | unwritable (path reason : String)
  | invalidJson
  | missingMember (member : String)
  deriving DecidableEq, Repr

namespace Failure

def message : Failure → String
  | fileNotFound path => "file not found: " ++ path
  | unreadable path reason => "cannot read " ++ path ++ ": " ++ reason
  | unwritable path reason => "cannot write " ++ path ++ ": " ++ reason
  | invalidJson => "invalid JSON"
  | missingMember member => "device description has no \"" ++ member ++ "\" object"

/-- Exit status: 3 for files, 2 for their contents. -/
def exitCode : Failure → Nat
  | fileNotFound _ | unreadable .. | unwritable .. => 3
  | invalidJson | missingMember _ => 2

end Failure
end DeviceTwin
