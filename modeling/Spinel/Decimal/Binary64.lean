import Spinel.Number.Power

/-!
# Floats as exact numbers

A double is not a number, infinite, or an integer times a power of two. `Binary64` makes that
structure explicit, so that text and remainders can be computed with exact integers.
-/

namespace Spinel

/-- What the sixty-four bits of a float stand for. -/
inductive Binary64 where
  | nan
  | infinite (negative : Bool)
  /-- The number `mantissa * 2 ^ exponent`, with its sign. -/
  | finite (negative : Bool) (mantissa : Nat) (exponent : Int)
deriving DecidableEq

namespace Binary64

/-- The least exponent: that of the numbers next to zero. -/
def minExponent : Int := -1074

/-- The greatest exponent of a finite number with a full mantissa. -/
def maxExponent : Int := 971

/-- The least mantissa of a number that is not next to zero. -/
def leastFull : Nat := twoPow 52

/-- Read the bits. -/
def ofBits (bits : UInt64) : Binary64 :=
  let n := bits.toNat
  let negative := decide (twoPow 63 ≤ n)
  let field : Nat := n / twoPow 52 % 2048
  let fraction : Nat := n % twoPow 52
  if field = 2047 then (if fraction = 0 then .infinite negative else .nan)
  else if field = 0 then .finite negative fraction minExponent
  else .finite negative (leastFull + fraction) ((field : Int) - 1075)

/-- What a float stands for. -/
def ofFloat (x : Float) : Binary64 := ofBits x.toBits

/-- The bits of a sign and the sixty-three bits below it. -/
def withSign (negative : Bool) (magnitude : Nat) : UInt64 :=
  UInt64.ofNat (if negative then twoPow 63 + magnitude else magnitude)

/-- The bits of an infinite number, below the sign. -/
def infiniteMagnitude : Nat := 2047 * twoPow 52

/-- The bits below the sign of `mantissa * 2 ^ exponent`, for a mantissa below `2 ^ 53` that is
full unless the exponent is the least one. -/
def magnitudeBits (mantissa : Nat) (exponent : Int) : Nat :=
  if mantissa < leastFull then mantissa
  else if maxExponent < exponent then infiniteMagnitude
  else (exponent + 1075).toNat * twoPow 52 + (mantissa - leastFull)

end Binary64

end Spinel
