/-! Identifiers made from display text. -/
namespace DeviceTwin.Identifier

/-- Longest name of a content entry, an enumeration value or a command. -/
def nameLimit : Nat := 64

/-- Longest name of a device class. -/
def classLimit : Nat := 237

def isIdentifierChar (c : Char) : Bool := c.isAlphanum || c = '_'

/-- What a character becomes: itself, or an underscore for each byte of its UTF-8 encoding. -/
def ofChar (c : Char) : List Char :=
  if isIdentifierChar c then [c] else List.replicate c.utf8Size '_'

/-- The identifier of a display text, cut off at `limit` characters. -/
def ofDisplay (limit : Nat) (display : String) : String :=
  String.ofList ((display.toList.flatMap ofChar).take limit)

end DeviceTwin.Identifier
