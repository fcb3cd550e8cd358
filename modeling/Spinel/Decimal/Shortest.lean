import Spinel.Decimal.Binary64

/-!
# The shortest decimal that reads back

Among the decimals that round to a given float, the one with the fewest digits, and of those the one
nearest to it. The search is over exact integers: for one digit, two digits and so on it tries the
two neighbours of the number on that decimal grid.
-/

namespace Spinel

/-- The number `digits * 10 ^ exponent`. -/
structure Decimal where
  digits : Nat
  exponent : Int
deriving DecidableEq

namespace Decimal

/-- The digits as text. -/
def digitText (d : Decimal) : List Char := Nat.toDigits 10 d.digits

/-- The same number without zeros at the end of the digits, up to `n` of them. -/
def stripZeros : Nat → Decimal → Decimal
  | 0, d => d
  | n + 1, d =>
    if d.digits % 10 = 0 ∧ d.digits ≠ 0 then stripZeros n ⟨d.digits / 10, d.exponent + 1⟩ else d

/-- Whether `10 ^ k ≤ num / den`. -/
def atLeastPow10 (num den : Nat) (k : Int) : Bool :=
  if 0 ≤ k then den * tenPow k.toNat ≤ num else den ≤ num * tenPow (-k).toNat

/-- The number of digits before the decimal point of `num / den`, negative for zeros behind it. -/
def pointOf (num den : Nat) : Int :=
  let log := (num.log2 : Int) - (den.log2 : Int)
  let guess := Int.fdiv (log * 30103) 100000
  ([guess - 1, guess, guess + 1].find? fun k => !atLeastPow10 num den k).getD (guess + 2)

/-- The numbers that round to a float, as numerators over one denominator: the ends of the interval,
the float itself, and whether the ends belong to it. -/
structure Interval where
  low : Nat
  value : Nat
  high : Nat
  denominator : Nat
  closed : Bool

/-- The interval of `mantissa * 2 ^ exponent`. Below a power of two the floats lie closer. -/
def Interval.of (mantissa : Nat) (exponent : Int) : Interval :=
  let below :=
    if mantissa = Binary64.leastFull ∧ Binary64.minExponent < exponent then 1 else 2
  let up := (exponent - 2).toNat
  let scale := twoPow up
  { low := (4 * mantissa - below) * scale
    value := 4 * mantissa * scale
    high := (4 * mantissa + 2) * scale
    denominator := twoPow (2 - exponent).toNat
    closed := mantissa % 2 = 0 }

/-- Whether `digits * 10 ^ exponent` lies in the interval. -/
def Interval.holds (i : Interval) (d : Decimal) : Bool :=
  let point := d.digits * (i.denominator * tenPow d.exponent.toNat)
  let scale := tenPow (-d.exponent).toNat
  if i.closed then i.low * scale ≤ point && point ≤ i.high * scale
  else i.low * scale < point && point < i.high * scale

/-- The neighbour on the grid of multiples of `10 ^ exponent` that lies in the interval, the nearer
one of two, the greater one of two equally near. -/
def Interval.onGrid? (i : Interval) (exponent : Int) : Option Decimal :=
  let unit := i.denominator * tenPow exponent.toNat
  let value := i.value * tenPow (-exponent).toNat
  let below : Decimal := ⟨value / unit, exponent⟩
  let above : Decimal := ⟨value / unit + 1, exponent⟩
  match i.holds below, i.holds above with
  | true, true => some (if 2 * (value % unit) < unit then below else above)
  | true, false => some below
  | false, true => some above
  | false, false => none

/-- Seventeen digits always tell a float from its neighbours. -/
def mostDigits : Nat := 17

/-- The shortest decimal for `mantissa * 2 ^ exponent`, for a mantissa that is not zero. -/
def shortest (mantissa : Nat) (exponent : Int) : Decimal :=
  let i := Interval.of mantissa exponent
  let point := pointOf i.value i.denominator
  let found := (List.range mostDigits).findSome? fun (n : Nat) => i.onGrid? (point - (n + 1))
  stripZeros mostDigits (found.getD ⟨mantissa, exponent⟩)

end Decimal

end Spinel
