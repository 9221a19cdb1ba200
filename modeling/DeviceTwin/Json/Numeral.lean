import DeviceTwin.Json.Basic

/-!
The text of JSON numbers.

An integer that fits in 64 bits is exact. Any other number is a binary64 read in two roundings:
the digits as a 64-bit significand are rounded first, and the result is multiplied or divided by
the rounded power of ten. Digits that no longer fit in the significand are dropped.
-/
namespace DeviceTwin.Numeral

/-- Largest significand. -/
def significandMax : Nat := Nat.pow 2 64 - 1

/-- The digits of a number as a significand and a power of ten. -/
structure Decimal where
  significand : Nat
  exponent : Int
  deriving DecidableEq, Repr

def digitValue (c : Char) : Nat := c.toNat - '0'.toNat

/-- Appends as many digits as the significand takes; the second part counts them. -/
def takeDigits (significand : Nat) : List Char → Nat × Nat
  | [] => (significand, 0)
  | c :: cs =>
    let next := significand * 10 + digitValue c
    if next ≤ significandMax then
      let (total, taken) := takeDigits next cs
      (total, taken + 1)
    else (significand, 0)

/-- A whole part scales by ten for every digit dropped, a fraction by a tenth for every digit
taken. -/
def Decimal.ofDigits (whole fraction : List Char) (exponent : Int) : Decimal :=
  let (significand, taken) := takeDigits 0 whole
  let (significand, places) := takeDigits significand fraction
  ⟨significand, ((whole.length - taken : Nat) : Int) - places + exponent⟩

/-- Rank of the power of ten nearest to `10 ^ k`, for `k` up to 308. -/
def powerOfTen (k : Nat) : Nat := Binary64.rankNearest (Nat.pow 10 k * Binary64.one) 1

/-- Rank of the quotient of two magnitudes, rounded. -/
def divideRank (a b : Nat) : Nat :=
  Binary64.rankNearest (Binary64.unitsOfRank a * Binary64.one) (Binary64.unitsOfRank b)

/-- Rank of the product of two magnitudes, rounded. -/
def multiplyRank (a b : Nat) : Nat :=
  Binary64.rankNearest (Binary64.unitsOfRank a * Binary64.unitsOfRank b) Binary64.one

/-- Divides by `10 ^ k` in steps of at most 308 places. -/
def scaleDown (rank k : Nat) : Nat :=
  if rank = 0 then 0
  else if k ≤ 308 then divideRank rank (powerOfTen k)
  else scaleDown (divideRank rank (powerOfTen 308)) (k - 308)
termination_by k

/-- The binary64 of a decimal; nothing when it is too large. -/
def Decimal.toBinary64? (negative : Bool) (d : Decimal) : Option Binary64 :=
  let rank := Binary64.rankNearest (d.significand * Binary64.one) 1
  match d.exponent with
  | .negSucc k => Binary64.ofRank? negative (scaleDown rank (k + 1))
  | .ofNat k =>
    if rank = 0 then Binary64.ofRank? negative 0
    else if k ≤ 308 then Binary64.ofRank? negative (multiplyRank rank (powerOfTen k))
    else none

/-- Value of a nonempty digit string. -/
def readDigits? : List Char → Option Nat
  | [] => none
  | cs => if cs.all Char.isDigit then some (Nat.ofDigitChars 10 cs 0) else none

/-- An exponent: an optional sign and at least one digit. -/
def readExponent? : List Char → Option Int
  | '-' :: cs => (readDigits? cs).map fun n => -(n : Int)
  | '+' :: cs => (readDigits? cs).map fun n => (n : Int)
  | cs => (readDigits? cs).map fun n => (n : Int)

/-- A whole part is `0`, or digits that do not begin with one. -/
def isWhole : List Char → Bool
  | [] => false
  | ['0'] => true
  | c :: _ => c != '0'

/-- A fraction begins with a point and has at least one digit. -/
def readFraction? : List Char → Option (List Char × List Char)
  | '.' :: cs =>
    if (cs.takeWhile Char.isDigit).isEmpty then none
    else some (cs.takeWhile Char.isDigit, cs.dropWhile Char.isDigit)
  | cs => some ([], cs)

/-- A whole number without point or exponent. Negative zero and integers beyond 64 bits are
binary64. -/
def ofWhole? (negative : Bool) (whole : List Char) : Option Number :=
  let n := Nat.ofDigitChars 10 whole 0
  if !negative && n ≤ significandMax then some (.int n)
  else if negative && 0 < n && n ≤ Nat.pow 2 63 then some (.int (-n))
  else ((Decimal.ofDigits whole [] 0).toBinary64? negative).map .real

/-- An unsigned number: a whole part, a fraction and an exponent, the last two optional. -/
def readUnsigned? (negative : Bool) (cs : List Char) : Option Number := do
  let whole := cs.takeWhile Char.isDigit
  if !isWhole whole then none
  match cs.dropWhile Char.isDigit with
  | [] => ofWhole? negative whole
  | rest =>
    let (fraction, rest) ← readFraction? rest
    let exponent ← match rest with
      | [] => some 0
      | c :: rest => if c = 'e' || c = 'E' then readExponent? rest else none
    ((Decimal.ofDigits whole fraction exponent).toBinary64? negative).map .real

/-- Reads the whole text of a number. -/
def read? : List Char → Option Number
  | '-' :: cs => readUnsigned? true cs
  | cs => readUnsigned? false cs

end DeviceTwin.Numeral
