import DeviceTwin.Text.Blank
import DeviceTwin.Text.Digit

/-!
The integer that a text begins with: white space, an optional sign, and digits up to the first
character that is none. Without digits it is zero.
-/
namespace DeviceTwin.LeadingInteger

/-- Largest magnitude; longer digit sequences stand for it. -/
def magnitudeMax : Nat := Nat.pow 2 63 - 1

def magnitude (radix : Nat) (cs : List Char) : Nat :=
  min (ofDigits radix (leadingDigits radix cs)) magnitudeMax

def ofUnpadded (radix : Nat) : List Char → Int
  | '-' :: cs => -(magnitude radix cs : Int)
  | '+' :: cs => magnitude radix cs
  | cs => magnitude radix cs

/-- The leading integer of a text. -/
def ofText (radix : Nat) (s : String) : Int := ofUnpadded radix (s.toList.dropWhile isWhiteSpace)

/-- Its low 32 bits, as a signed integer. -/
def low32 (radix : Nat) (s : String) : Int32 := Int32.ofInt (ofText radix s)

end DeviceTwin.LeadingInteger
