import DeviceTwin.Json.Pointer
import DeviceTwin.Violation

/-!
Violations with the places they were found at. A finding is located relative to the value that was
read; a diagnostic carries the text of a whole path.
-/
namespace DeviceTwin

/-- A violation at a place inside of a value. -/
structure Finding where
  pointer : Pointer
  violation : Violation
  deriving DecidableEq, Repr

/-- The same finding, seen from a value that holds this one under `segment`. -/
def Finding.within (segment : String) (finding : Finding) : Finding :=
  { finding with pointer := segment :: finding.pointer }

/-- A recorded violation with its path in the document. -/
structure Diagnostic where
  path : String
  violation : Violation
  deriving DecidableEq, Repr

/-- A finding in a value that stands at `base`. -/
def Finding.diagnostic (base : String) (finding : Finding) : Diagnostic :=
  ⟨finding.pointer.renderFrom base, finding.violation⟩

namespace Diagnostic

/-- The diagnostic on one line. -/
def line (d : Diagnostic) : String :=
  "[" ++ d.violation.code ++ "] " ++ d.path ++ ": " ++ d.violation.message

def toJson (d : Diagnostic) : Json :=
  .obj [("category", .str d.violation.category.name), ("code", .str d.violation.code),
    ("path", .str d.path), ("message", .str d.violation.message)]

end Diagnostic
end DeviceTwin
