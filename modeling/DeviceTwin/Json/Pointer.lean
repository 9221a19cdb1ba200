import DeviceTwin.Json.Basic
import DeviceTwin.Text.Slash

/-!
Pointers into a JSON value: member names and array indices from the root on. In text every segment
follows a slash, `~` is written `~0` and a slash `~1`.
-/
namespace DeviceTwin

/-- The segments of a pointer, outermost first. -/
abbrev Pointer := List String

namespace Pointer

def escapeChar : Char → List Char
  | '~' => ['~', '0']
  | '/' => ['~', '1']
  | c => [c]

def escape (segment : String) : List Char := segment.toList.flatMap escapeChar

/-- A pointer text extended by one segment. -/
def join (base segment : String) : String := base ++ String.ofList ('/' :: escape segment)

/-- The text of a pointer that starts where `base` points. -/
def renderFrom (base : String) (p : Pointer) : String := p.foldl join base

/-- Undoes `escape`; every other tilde is malformed. -/
def unescape? : List Char → Option (List Char)
  | [] => some []
  | '~' :: '0' :: rest => (unescape? rest).map ('~' :: ·)
  | '~' :: '1' :: rest => (unescape? rest).map ('/' :: ·)
  | '~' :: _ => none
  | c :: rest => (unescape? rest).map (c :: ·)

/-- Reads the text of a pointer. -/
def parse? (s : String) : Option Pointer :=
  match splitSlash s.toList with
  | [] :: segments => segments.mapM fun segment => (unescape? segment).map String.ofList
  | _ => none

/-- The item that an array index names; indices are written without leading zeros. -/
def item? (items : List Json) (segment : String) : Option Json :=
  (items.zipIdx.find? fun (_, i) => toString i = segment).map (·.1)

/-- One step down. -/
def child? (value : Json) (segment : String) : Option Json :=
  match value with
  | .arr items => item? items segment
  | .obj members => members.lookup segment
  | _ => none

/-- The value that a pointer leads to. -/
def resolve? (value : Json) : Pointer → Option Json
  | [] => some value
  | segment :: rest => (child? value segment).bind fun value => resolve? value rest

end Pointer
end DeviceTwin
