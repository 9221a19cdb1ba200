import DeviceTwin.Json.Basic

/-!
Writing JSON text, on one line or with one member or item to a line. Only quotes, backslashes and
control characters are escaped.
-/
namespace DeviceTwin.Json

inductive Layout where
  | compact
  | indented (width : Nat)
  deriving DecidableEq, Repr

/-- Starts a new line at a level of nesting. -/
def Layout.newline (layout : Layout) (level : Nat) : List Char :=
  match layout with
  | .compact => []
  | .indented width => '\n' :: List.replicate (width * level) ' '

def Layout.colon : Layout → List Char
  | .compact => [':']
  | .indented _ => [':', ' ']

/-- The character of a hexadecimal digit. -/
def hexDigit (n : Nat) : Char := n.digitChar

def escapeChar (c : Char) : List Char :=
  match c with
  | '"' => ['\\', '"']
  | '\\' => ['\\', '\\']
  | '\x08' => ['\\', 'b']
  | '\x0c' => ['\\', 'f']
  | '\n' => ['\\', 'n']
  | '\r' => ['\\', 'r']
  | '\t' => ['\\', 't']
  | c =>
    if c.toNat < 0x20 then ['\\', 'u', '0', '0', hexDigit (c.toNat / 16), hexDigit (c.toNat % 16)]
    else [c]

def writeString (s : String) : List Char := '"' :: s.toList.flatMap escapeChar ++ ['"']

/-- The exact decimal expansion of a binary64, with at least one place. -/
def writeReal (x : Binary64) : List Char :=
  let fraction := Nat.toDigits 10 (x.units % Binary64.one * Nat.pow 5 1074)
  let places := List.replicate (1074 - fraction.length) '0' ++ fraction
  let kept := (places.reverse.dropWhile (· = '0')).reverse
  (if x.negative then ['-'] else []) ++ Nat.toDigits 10 (x.units / Binary64.one) ++ '.' ::
    (if kept.isEmpty then ['0'] else kept)

def writeNumber : Number → List Char
  | .int n => (if n < 0 then ['-'] else []) ++ Nat.toDigits 10 n.natAbs
  | .real x => writeReal x

mutual

/-- The text of a value whose first character stands at a level of nesting. -/
def write (layout : Layout) (level : Nat) : Json → List Char
  | .null => ['n', 'u', 'l', 'l']
  | .bool true => ['t', 'r', 'u', 'e']
  | .bool false => ['f', 'a', 'l', 's', 'e']
  | .num n => writeNumber n
  | .str s => writeString s
  | .arr [] => ['[', ']']
  | .arr (item :: rest) =>
    '[' :: layout.newline (level + 1) ++ write layout (level + 1) item ++
      writeItems layout (level + 1) rest ++ layout.newline level ++ [']']
  | .obj [] => ['\x7b', '\x7d']
  | .obj ((key, value) :: rest) =>
    '\x7b' :: layout.newline (level + 1) ++ writeString key ++ layout.colon ++
      write layout (level + 1) value ++ writeMembers layout (level + 1) rest ++
      layout.newline level ++ ['\x7d']

/-- Items after the first, each with the comma before it. -/
def writeItems (layout : Layout) (level : Nat) : List Json → List Char
  | [] => []
  | item :: rest =>
    ',' :: layout.newline level ++ write layout level item ++ writeItems layout level rest

/-- Members after the first, each with the comma before it. -/
def writeMembers (layout : Layout) (level : Nat) : List (String × Json) → List Char
  | [] => []
  | (key, value) :: rest =>
    ',' :: layout.newline level ++ writeString key ++ layout.colon ++ write layout level value ++
      writeMembers layout level rest

end

def render (layout : Layout) (value : Json) : String := String.ofList (write layout 0 value)

end DeviceTwin.Json
