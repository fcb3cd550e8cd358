import Spinel.Decimal.Binary64

/-!
# The float nearest to an exact number

Rounding of a quotient of integers to the nearest float, a tie to the even mantissa, and with it
the reading of decimal numerals.
-/

namespace Spinel.Binary64

/-- The integer nearest to `num / den`, the even one of two that are equally near. -/
def roundEven (num den : Nat) : Nat :=
  let q := num / den
  let r := 2 * (num % den)
  if r < den then q
  else if den < r then q + 1
  else if q % 2 = 0 then q else q + 1

/-- Whether `2 ^ e ≤ num / den`. -/
def atLeastPow2 (num den : Nat) (e : Int) : Bool :=
  if 0 ≤ e then den * twoPow e.toNat ≤ num else den ≤ num * twoPow (-e).toNat

/-- The exponent that gives `num / den` a full mantissa, but not below the least exponent. -/
def exponentFor (num den : Nat) : Int :=
  let guess : Int := (num.log2 : Int) - (den.log2 : Int)
  let log := if atLeastPow2 num den guess then guess else guess - 1
  max (log - 52) minExponent

/-- The bits of the float nearest to `num / den`, for `den` not zero. -/
def nearest (negative : Bool) (num den : Nat) : UInt64 :=
  if num = 0 then withSign negative 0
  else
    let e := exponentFor num den
    let m := if 0 ≤ e then roundEven num (den * twoPow e.toNat)
      else roundEven (num * twoPow (-e).toNat) den
    let magnitude :=
      if m = 2 * leastFull then magnitudeBits leastFull (e + 1) else magnitudeBits m e
    withSign negative magnitude

/-- Numbers of more decimal places than these, before or behind the point, are infinite or zero. -/
def decimalLimit : Int := 400

/-- The float nearest to `digits * 10 ^ exponent`. -/
def ofDecimal (negative : Bool) (digits : Nat) (exponent : Int) : Float :=
  let top := exponent + (digits.log2 / 3 : Nat)
  Float.ofBits <|
    if digits = 0 then withSign negative 0
    else if decimalLimit < exponent then withSign negative infiniteMagnitude
    else if top < -decimalLimit then withSign negative 0
    else if 0 ≤ exponent then nearest negative (digits * tenPow exponent.toNat) 1
    else nearest negative digits (tenPow (-exponent).toNat)

end Spinel.Binary64
