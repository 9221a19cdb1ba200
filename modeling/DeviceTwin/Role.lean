import DeviceTwin.Shape.Basic

/-! What a property becomes in an interface, by its access rules. -/
namespace DeviceTwin

inductive ContentType where
  | command
  | telemetry
  | property
  deriving DecidableEq, Repr

def ContentType.name : ContentType → String
  | command => "Command"
  | telemetry => "Telemetry"
  | property => "Property"

/-- The part that a property plays. -/
structure Role where
  type : ContentType
  /-- Only a property can be writable. -/
  writable : Bool := false
  deriving DecidableEq, Repr

/-- A property that can only be written is a command. One that can only be read is telemetry if it
is announced, and if announcing is optional, telemetry only as a state. One that can be read and
written is a writable property. Only some combinations of rules are supported. -/
def Role.of (access : Access) (shape : Shape) : Except Violation Role :=
  match access.get, access.set, access.inform with
  | .notApplicable, .optional, .notApplicable
  | .notApplicable, .required, .optional => .ok { type := .command }
  | .optional, .notApplicable, .required
  | .required, .notApplicable, .required
  | .requiredByCase, .notApplicable, .required => .ok { type := .telemetry }
  | .optional, .notApplicable, .optional
  | .required, .notApplicable, .optional
  | .requiredByCase, .notApplicable, .optional =>
    .ok { type := if shape.isState then .telemetry else .property }
  | .required, .required, .notApplicable
  | .optional, .optional, .required
  | .required, .optional, .required
  | .required, .required, .required
  | .requiredByCase, .requiredByCase, .required
  | .optional, .optional, .optional
  | .required, .optional, .optional
  | .requiredByCase, .optional, .optional
  | .required, .required, .optional
  | .requiredByCase, .requiredByCase, .optional => .ok { type := .property, writable := true }
  | _, _, _ => .error (.unsupportedAccess access)

end DeviceTwin
