import Spinel.Number.Bounded
import Spinel.Number.Power

/-!
# Integer arithmetic

Each operation gives the exact result on integers, and nothing if that does not fit in sixty-four
bits.
-/

namespace Spinel.Integer

def add (x y : Int64) : Option Int64 := int64? (x.toInt + y.toInt)

def subtract (x y : Int64) : Option Int64 := int64? (x.toInt - y.toInt)

def multiply (x y : Int64) : Option Int64 := int64? (x.toInt * y.toInt)

def negate (x : Int64) : Option Int64 := int64? (-x.toInt)

def absolute (x : Int64) : Option Int64 := int64? x.toInt.natAbs

/-! ## Division -/

/-- The quotient rounded toward zero, for a divisor that is not zero. -/
def divide (x y : Int64) : Option Int64 := int64? (x.toInt.tdiv y.toInt)

def signsDiffer (x y : Int64) : Bool := decide (x < 0) != decide (y < 0)

/-- The quotient rounded down, for a divisor that is not zero: one less than the one rounded toward
zero, if that was rounded up. -/
def floorDivide (x y : Int64) : Option Int64 := do
  let q ← divide x y
  return if x % y != 0 && signsDiffer x y then q - 1 else q

/-- The remainder that has the sign of the divisor, for a divisor that is not zero. -/
def floorModulo (x y : Int64) : Int64 :=
  let r := x % y
  if r != 0 && signsDiffer r y then r + y else r

/-! ## Powers -/

/-- Squaring and multiplying: `r * x ^ n` for an exponent of so many bits, and nothing as soon as a
square or a product does not fit. -/
def powerFrom : (bits : Nat) → (x : Int64) → (n : Nat) → (r : Int64) → Option Int64
  | 0, _, _, r => some r
  | bits + 1, x, n, r => do
    let r ← (if n % 2 = 1 then multiply r x else some r)
    if n / 2 = 0 then some r
    else
      let square ← multiply x x
      powerFrom bits square (n / 2) r

/-- A power. Of exponents with more than thirty-two bits there are only powers of 0, 1 and -1. -/
def power (x : Int64) (n : Nat) : Option Int64 :=
  if n < twoPow 32 then powerFrom 32 x n 1
  else if x = 0 ∨ x = 1 then some x
  else if x = -1 then some (if n % 2 = 0 then 1 else -1)
  else none

/-! ## Shifts -/

/-- Shift to the left by a count that is not negative. If something is lost, shifting back does not
give it again. -/
def shiftLeftBy (x n : Int64) : Option Int64 :=
  if x = 0 then some 0
  else if 64 ≤ n then none
  else if (x <<< n) >>> n = x then some (x <<< n)
  else none

/-- Shift to the right by a count that is not negative. In the end only the sign is left. -/
def shiftRightBy (x n : Int64) : Int64 :=
  if 64 ≤ n then if x < 0 then -1 else 0 else x >>> n

/-- The count for a shift the other way. The greatest stands in for that of the least, which does
not fit. -/
def opposite (n : Int64) : Int64 := (negate n).getD Int64.maxValue

/-- Shift to the left, or to the right by a negative count. -/
def shiftLeft (x n : Int64) : Option Int64 :=
  if n < 0 then some (shiftRightBy x (opposite n)) else shiftLeftBy x n

/-- Shift to the right, or to the left by a negative count. -/
def shiftRight (x n : Int64) : Option Int64 :=
  if n < 0 then shiftLeftBy x (opposite n) else some (shiftRightBy x n)

/-! ## Parity and ranges -/

def isEven (x : Int64) : Bool := x.toInt % 2 = 0

/-- The integers from `low` to `high`. -/
def rangeSize (low high : Int64) : Nat := (high.toInt - low.toInt + 1).toNat

/-- `count` integers from `low` on. -/
def upFrom (low : Int64) (count : Nat) : List Int64 :=
  (List.range count).map fun (i : Nat) => .ofInt (low.toInt + i)

end Spinel.Integer
