import DeviceTwin.Access

/-!
Rules of the description dialect that a document can break. A violation never stops a conversion;
it leaves out the smallest unit it was found in.
-/
namespace DeviceTwin

inductive Violation where
  | unknownMember (member : String)
  | unexpectedType (expected actual : String)
  | unknownDataType (value : String)
  | unknownNumberFormat (value : String)
  | kindAlreadySet (existing : String)
  | alreadyPopulated (collection : String)
  | enumNotSupported (kind : String)
  | missingNumberFormat
  | misplacedCollection (collection kind : String)
  | malformedReference (reference : String)
  | undefinedReference (reference : String)
  | circularReference (reference : String)
  | depthExceeded (max : Nat)
  | unsupportedAccess (access : Access)
  | unsupportedShape (kind : String)
  deriving DecidableEq, Repr

namespace Violation

/-- A violation either breaks the dialect or uses a part of it that the interfaces cannot
express. -/
inductive Category where
  | structural
  | unsupportedShape
  deriving DecidableEq, Repr

def Category.name : Category → String
  | structural => "structuralViolation"
  | unsupportedShape => "unsupportedShape"

def category : Violation → Category
  | .unsupportedShape _ => .unsupportedShape
  | _ => .structural

/-- Stable short code used in reports. -/
def code : Violation → String
  | unknownMember _ => "S001"
  | unexpectedType .. => "S002"
  | unknownDataType _ => "S003"
  | unknownNumberFormat _ => "S004"
  | kindAlreadySet _ => "S005"
  | alreadyPopulated _ => "S006"
  | enumNotSupported _ => "S007"
  | missingNumberFormat => "S008"
  | misplacedCollection .. => "S009"
  | malformedReference _ => "S010"
  | undefinedReference _ => "S011"
  | circularReference _ => "S012"
  | depthExceeded _ => "S013"
  | unsupportedAccess _ => "S014"
  | unsupportedShape _ => "U001"

def quoted (s : String) : String := "\"" ++ s ++ "\""

def message : Violation → String
  | unknownMember member => "unknown member " ++ quoted member
  | unexpectedType expected actual => "expected " ++ expected ++ ", got " ++ actual
  | unknownDataType value => "unknown data type " ++ quoted value
  | unknownNumberFormat value => "unknown number format " ++ quoted value
  | kindAlreadySet existing => "data type already set to " ++ existing
  | alreadyPopulated collection => collection ++ " already populated"
  | enumNotSupported kind => "enum is not supported on " ++ kind ++ " data"
  | missingNumberFormat => "numeric enum needs a preceding \"format\""
  | misplacedCollection collection kind => collection ++ " ignored on " ++ kind ++ " data"
  | malformedReference reference =>
    "reference " ++ quoted reference ++ " does not point into #/definitions"
  | undefinedReference reference => "undefined reference " ++ quoted reference
  | circularReference reference => "circular reference " ++ quoted reference
  | depthExceeded max => "nesting exceeds maximum depth of " ++ toString max
  | unsupportedAccess access => "unsupported access rule combination " ++ access.describe
  | unsupportedShape kind => "no schema mapping for " ++ kind ++ " data"

end Violation
end DeviceTwin
