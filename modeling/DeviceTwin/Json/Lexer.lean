import DeviceTwin.Json.Numeral
import DeviceTwin.Text.Digit

/-!
Tokens of JSON text. The lexer takes one character at a time; a word or a number ends at the first
character that cannot belong to it.
-/
namespace DeviceTwin.Json

/-- A token; literals are values already. -/
inductive Token where
  | scalar (value : Json)
  | text (s : String)
  | openArray
  | closeArray
  | openObject
  | closeObject
  | comma
  | colon

/-- What has been read of a string since its last whole character. -/
inductive Escape where
  | plain
  | backslash
  /-- Hexadecimal digits of a code unit, and the lead surrogate before it, if there was one. -/
  | unit (lead : Option Nat) (digits : List Nat)
  /-- A lead surrogate, which only a trail surrogate completes. -/
  | afterLead (lead : Nat)
  | afterLeadBackslash (lead : Nat)

/-- What has been read of the current token. Characters are kept last first. -/
inductive Mode where
  | between
  | word (letters : List Char)
  | numeral (chars : List Char)
  | string (chars : List Char) (escape : Escape)

def isBlank (c : Char) : Bool := c = ' ' || c = '\t' || c = '\n' || c = '\r'

def punctuation? : Char → Option Token
  | '[' => some .openArray
  | ']' => some .closeArray
  | '{' => some .openObject
  | '}' => some .closeObject
  | ',' => some .comma
  | ':' => some .colon
  | _ => none

def word? : List Char → Option Json
  | ['n', 'u', 'l', 'l'] => some .null
  | ['t', 'r', 'u', 'e'] => some (.bool true)
  | ['f', 'a', 'l', 's', 'e'] => some (.bool false)
  | _ => none

def isNumeralChar (c : Char) : Bool :=
  c.isDigit || c = '-' || c = '+' || c = '.' || c = 'e' || c = 'E'

/-- Meaning of the character after a backslash, the code unit escape apart. -/
def simpleEscape? : Char → Option Char
  | '"' => some '"'
  | '\\' => some '\\'
  | '/' => some '/'
  | 'b' => some '\x08'
  | 'f' => some '\x0c'
  | 'n' => some '\n'
  | 'r' => some '\r'
  | 't' => some '\t'
  | _ => none

def isLead (n : Nat) : Bool := 0xD800 ≤ n && n < 0xDC00
def isTrail (n : Nat) : Bool := 0xDC00 ≤ n && n < 0xE000

/-- Completes a code unit: surrogates stand only in pairs of a lead and a trail. -/
def takeUnit (chars : List Char) (lead : Option Nat) (n : Nat) : Option Mode :=
  match lead with
  | none =>
    if isLead n then some (.string chars (.afterLead n))
    else if isTrail n then none
    else some (.string (Char.ofNat n :: chars) .plain)
  | some lead =>
    if isTrail n then
      some (.string (Char.ofNat (0x10000 + (lead - 0xD800) * 0x400 + (n - 0xDC00)) :: chars) .plain)
    else none

/-- One character of a string; control characters must be escaped. -/
def stepString (chars : List Char) (escape : Escape) (c : Char) : Option (Mode × List Token) :=
  match escape with
  | .plain =>
    if c = '"' then some (.between, [.text (String.ofList chars.reverse)])
    else if c = '\\' then some (.string chars .backslash, [])
    else if c.toNat < 0x20 then none
    else some (.string (c :: chars) .plain, [])
  | .backslash =>
    if c = 'u' then some (.string chars (.unit none []), [])
    else (simpleEscape? c).map fun c => (.string (c :: chars) .plain, [])
  | .unit lead digits => do
    let digits := digits ++ [← digit? 16 c]
    if digits.length < 4 then some (.string chars (.unit lead digits), [])
    else (takeUnit chars lead (ofDigits 16 digits)).map (·, [])
  | .afterLead lead =>
    if c = '\\' then some (.string chars (.afterLeadBackslash lead), []) else none
  | .afterLeadBackslash lead =>
    if c = 'u' then some (.string chars (.unit (some lead) []), []) else none

/-- One character outside of any token. -/
def stepBetween (c : Char) : Option (Mode × List Token) :=
  if isBlank c then some (.between, [])
  else if c = '"' then some (.string [] .plain, [])
  else if c.isDigit || c = '-' then some (.numeral [c], [])
  else if c.isLower then some (.word [c], [])
  else (punctuation? c).map fun token => (.between, [token])

/-- The token of a word or number that has ended. -/
def Mode.finish : Mode → Option (List Token)
  | .between => some []
  | .word letters => (word? letters.reverse).map fun value => [.scalar value]
  | .numeral chars => (Numeral.read? chars.reverse).map fun n => [.scalar (.num n)]
  | .string .. => none

/-- Takes one character; gives the tokens that it completes. -/
def Mode.step (mode : Mode) (c : Char) : Option (Mode × List Token) :=
  match mode with
  | .string chars escape => stepString chars escape c
  | .word letters =>
    if c.isLower then some (.word (c :: letters), []) else endToken (.word letters) c
  | .numeral chars =>
    if isNumeralChar c then some (.numeral (c :: chars), []) else endToken (.numeral chars) c
  | .between => stepBetween c
where
  /-- Ends the token before `c`, which then stands outside of it. -/
  endToken (mode : Mode) (c : Char) : Option (Mode × List Token) := do
    let ended ← mode.finish
    let (next, tokens) ← stepBetween c
    some (next, ended ++ tokens)

end DeviceTwin.Json
