/-!
Finite binary64 numbers, in exact arithmetic on natural numbers.

The nonnegative finite values are numbered from zero upwards. In units of `2 ^ -1074`, the least
positive value, the one numbered `k * 2 ^ 52 + s` is `s * 2 ^ k` for every significand `s` up to
`2 ^ 53`; a value that rounds up to the next power of two needs no case of its own.
-/
namespace DeviceTwin

/-- The quotient rounded to the nearest integer, a tie to the even neighbour. -/
def divNearestEven (n d : Nat) : Nat :=
  let q := n / d
  let twice := 2 * (n % d)
  if twice < d || (twice == d && q % 2 == 0) then q else q + 1

/-- A finite binary64 number: its sign, and the rank of its magnitude. -/
structure Binary64 where
  negative : Bool
  rank : Fin (2047 * Nat.pow 2 52)
  deriving DecidableEq, Repr

namespace Binary64

/-- One in units of the least positive value. -/
def one : Nat := Nat.pow 2 1074

/-- Rank of the value nearest to `n / d` units, with the exponent range unbounded above. -/
def rankNearest (n d : Nat) : Nat :=
  let shift := (n / d).log2 - 52
  shift * Nat.pow 2 52 + divNearestEven n (d * Nat.pow 2 shift)

/-- Magnitude of the value of a rank, in units. -/
def unitsOfRank (rank : Nat) : Nat :=
  let shift := rank / Nat.pow 2 52 - 1
  (rank - shift * Nat.pow 2 52) * Nat.pow 2 shift

def units (x : Binary64) : Nat := unitsOfRank x.rank.val

/-- The value with this sign and rank, unless it lies beyond the finite range. -/
def ofRank? (negative : Bool) (rank : Nat) : Option Binary64 :=
  if h : rank < 2047 * Nat.pow 2 52 then some ⟨negative, rank, h⟩ else none

/-- The largest finite value. -/
def largest (negative : Bool) : Binary64 := ⟨negative, 2047 * Nat.pow 2 52 - 1, by decide⟩

/-- The value nearest to an integer; one beyond the range takes the largest value. -/
def ofInt (n : Int) : Binary64 :=
  (ofRank? (n < 0) (rankNearest (n.natAbs * one) 1)).getD (largest (n < 0))

/-- The integer part: any fraction is dropped, whatever the sign. -/
def truncate (x : Binary64) : Int :=
  let whole := x.units / one
  if x.negative then -(whole : Int) else whole

/-- The integer part, held within 32 bits. -/
def toInt32 (x : Binary64) : Int32 := Int32.ofIntClamp x.truncate

/-- The integer part, held within 64 bits. -/
def toInt64 (x : Binary64) : Int64 := Int64.ofIntClamp x.truncate

/-- The interchange encoding: sign, exponent and fraction from the highest bit down. -/
def toBits (x : Binary64) : Nat := (if x.negative then Nat.pow 2 63 else 0) + x.rank.val

end Binary64
end DeviceTwin
