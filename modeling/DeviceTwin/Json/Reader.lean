import DeviceTwin.Entries
import DeviceTwin.Json.Lexer

/-!
Reading JSON text, strictly: nothing but one value and blanks around it, and containers nested no
deeper than a limit. A key that is repeated in an object keeps its first place and its last value.
-/
namespace DeviceTwin.Json

/-- A container that has been opened, around the value that is read. Contents are kept last
first. -/
inductive Frame where
  | array (items : List Json)
  | object (members : List (String × Json)) (name : String)

/-- What the text has to go on with, inside the containers `outer`. -/
inductive Reading where
  | dueValue (outer : List Frame)
  | firstItem (outer : List Frame)
  | afterItem (items : List Json) (outer : List Frame)
  | firstName (outer : List Frame)
  | dueName (members : List (String × Json)) (outer : List Frame)
  | dueColon (members : List (String × Json)) (name : String) (outer : List Frame)
  | afterMember (members : List (String × Json)) (outer : List Frame)
  | complete (value : Json)

namespace Reading

/-- Hands a finished value to the container around it. -/
def give (value : Json) : List Frame → Reading
  | [] => .complete value
  | .array items :: outer => .afterItem (value :: items) outer
  | .object members name :: outer => .afterMember ((name, value) :: members) outer

/-- The first token of a value. -/
def start (limit : Nat) (outer : List Frame) : Token → Option Reading
  | .scalar value => some (give value outer)
  | .text s => some (give (.str s) outer)
  | .openArray => if outer.length < limit then some (.firstItem outer) else none
  | .openObject => if outer.length < limit then some (.firstName outer) else none
  | _ => none

/-- Takes one token. -/
def step (limit : Nat) (reading : Reading) (token : Token) : Option Reading :=
  match reading with
  | .dueValue outer => start limit outer token
  | .firstItem outer =>
    match token with
    | .closeArray => some (give (.arr []) outer)
    | token => start limit (.array [] :: outer) token
  | .afterItem items outer =>
    match token with
    | .comma => some (.dueValue (.array items :: outer))
    | .closeArray => some (give (.arr items.reverse) outer)
    | _ => none
  | .firstName outer =>
    match token with
    | .closeObject => some (give (.obj []) outer)
    | .text s => some (.dueColon [] s outer)
    | _ => none
  | .dueName members outer =>
    match token with
    | .text s => some (.dueColon members s outer)
    | _ => none
  | .dueColon members name outer =>
    match token with
    | .colon => some (.dueValue (.object members name :: outer))
    | _ => none
  | .afterMember members outer =>
    match token with
    | .comma => some (.dueName members outer)
    | .closeObject => some (give (.obj (Entries.distinct members.reverse)) outer)
    | _ => none
  | .complete _ => none

end Reading

/-- How far a text has been read. -/
structure Progress where
  mode : Mode
  reading : Reading

namespace Progress

def begin : Progress := ⟨.between, .dueValue []⟩

def step (limit : Nat) (p : Progress) (c : Char) : Option Progress := do
  let (mode, tokens) ← p.mode.step c
  let reading ← tokens.foldlM (Reading.step limit) p.reading
  some ⟨mode, reading⟩

/-- The value, once the text has ended. -/
def finish (limit : Nat) (p : Progress) : Option Json := do
  let tokens ← p.mode.finish
  match ← tokens.foldlM (Reading.step limit) p.reading with
  | .complete value => some value
  | _ => none

end Progress

/-- How deep the containers of a text may be nested. -/
def nestingLimit : Nat := 127

/-- Reads a text whose containers are nested at most `limit` deep. -/
def readWithin? (limit : Nat) (s : String) : Option Json :=
  (s.toList.foldlM (Progress.step limit) .begin).bind (Progress.finish limit)

def read? (s : String) : Option Json := readWithin? nestingLimit s

end DeviceTwin.Json
