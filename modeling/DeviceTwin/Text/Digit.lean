/-! Digits of a radix up to sixteen, in ASCII. -/
namespace DeviceTwin

/-- Value of a digit of the radix; letters of either case stand for ten and more. -/
def digit? (radix : Nat) (c : Char) : Option Nat :=
  let value? :=
    if c.isDigit then some (c.toNat - '0'.toNat)
    else if 'a' ≤ c && c ≤ 'f' then some (c.toNat - 'a'.toNat + 10)
    else if 'A' ≤ c && c ≤ 'F' then some (c.toNat - 'A'.toNat + 10)
    else none
  value?.filter (· < radix)

/-- Value of a sequence of digits, the highest first. -/
def ofDigits (radix : Nat) (digits : List Nat) : Nat :=
  digits.foldl (fun value digit => value * radix + digit) 0

/-- Values of the digits that a text begins with. -/
def leadingDigits (radix : Nat) : List Char → List Nat
  | [] => []
  | c :: cs =>
    match digit? radix c with
    | some d => d :: leadingDigits radix cs
    | none => []

end DeviceTwin
