import Spinel.Decimal.Nearest

/-!
# Float arithmetic

What the arithmetic of floats does not have ready: the exact remainder, small powers, and the way to
integers.
-/

namespace Spinel.Real

/-- A magnitude times a power of two that a float can hold, with a sign. -/
def scaled (negative : Bool) (magnitude : Nat) (exponent : Int) : Float :=
  .ofBits <|
    if 0 ≤ exponent then Binary64.nearest negative (magnitude * twoPow exponent.toNat) 1
    else Binary64.nearest negative magnitude (twoPow (-exponent).toNat)

/-- The remainder of truncating division, which is exact and has the sign of `x`. -/
def remainder (x y : Float) : Float :=
  match Binary64.ofFloat x, Binary64.ofFloat y with
  | .finite negative m e, .finite _ k f =>
    if k = 0 then 0.0 / 0.0
    else
      let low := min e f
      let m := m * twoPow (e - low).toNat
      let k := k * twoPow (f - low).toNat
      scaled negative (m % k) low
  | .finite .., .infinite _ => x
  | _, _ => 0.0 / 0.0

/-- The remainder that has the sign of `y`. -/
def floorModulo (x y : Float) : Float :=
  let r := remainder x y
  if r != 0.0 && decide (r < 0.0) != decide (y < 0.0) then r + y else r

/-- Squaring and multiplying: `r * a ^ n`, rounded at each step. -/
def powerFrom : (fuel : Nat) → (a : Float) → (n : Nat) → (r : Float) → Float
  | 0, _, _, r => r
  | fuel + 1, a, n, r =>
    let r := if n % 2 = 1 then r * a else r
    if n / 2 = 0 then r else powerFrom fuel (a * a) (n / 2) r

/-- Ten to a power. -/
def powerOfTen (n : Nat) : Float := powerFrom n.succ 10.0 n 1.0

/-- The part before the point. -/
def truncate (x : Float) : Float := if x < 0.0 then x.ceil else x.floor

/-- How two floats compare, unless one of them is not a number. -/
def compare? (x y : Float) : Option Ordering :=
  if x < y then some .lt else if y < x then some .gt else if x == y then some .eq else none

/-- Whether a whole float is in the range of integers. The greatest integer is no float, two to the
power of sixty-three is the first beyond it. -/
def inRange (x : Float) : Bool := x < 9223372036854775808.0 && !(x < -9223372036854775808.0)

end Spinel.Real
