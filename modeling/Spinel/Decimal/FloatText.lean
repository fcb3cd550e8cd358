import Spinel.Decimal.Shortest

/-!
# Floats as text

Floats are written with the fewest digits that read back, and always with a point. The format's own
decisions are in `FloatFormat`.
-/

namespace Spinel

/-- Which scientific exponents are written positionally, and how wide an exponent is at least. -/
structure FloatFormat where
  leastPositional : Int
  mostPositional : Int
  exponentWidth : Nat

namespace FloatFormat

/-- Programs write positionally from `0.0001` up to below `10 ^ 16`, and exponents with a sign and
two digits or more. -/
def program : FloatFormat := ⟨-4, 15, 2⟩

def zeros (n : Nat) : List Char := List.replicate n '0'

/-- Digits with the point behind the first `point` of them, padded with zeros on either side. -/
def positional (digits : List Char) (point : Int) : List Char :=
  if point ≤ 0 then ['0', '.'] ++ zeros (-point).toNat ++ digits
  else
    let n := point.toNat
    if digits.length ≤ n then digits ++ zeros (n - digits.length) ++ ['.', '0']
    else digits.take n ++ '.' :: digits.drop n

/-- A sign and at least `width` digits. -/
def exponentText (width : Nat) (e : Int) : List Char :=
  let digits := Nat.toDigits 10 e.natAbs
  (if e < 0 then '-' else '+') :: (zeros (width - digits.length) ++ digits)

/-- One digit, the point, the other digits or a zero, and the exponent. -/
def scientific (width : Nat) (digits : List Char) (e : Int) : List Char :=
  let tail := digits.drop 1
  digits.take 1 ++ '.' :: (if tail.isEmpty then ['0'] else tail) ++ 'e' :: exponentText width e

/-- The text of a positive decimal. -/
def magnitude (format : FloatFormat) (d : Decimal) : List Char :=
  let digits := d.digitText
  let e := d.exponent + digits.length - 1
  if format.leastPositional ≤ e ∧ e ≤ format.mostPositional then positional digits (e + 1)
  else scientific format.exponentWidth digits e

/-- The text of a float. -/
def text (format : FloatFormat) (x : Binary64) : String :=
  let signed (negative : Bool) (body : List Char) :=
    String.ofList (if negative then '-' :: body else body)
  match x with
  | .nan => "NaN"
  | .infinite negative => signed negative ['I', 'n', 'f', 'i', 'n', 'i', 't', 'y']
  | .finite negative 0 _ => signed negative ['0', '.', '0']
  | .finite negative m e => signed negative (format.magnitude (Decimal.shortest m e))

end FloatFormat

/-- A float as programs print it. -/
def floatText (x : Float) : String := FloatFormat.program.text (.ofFloat x)

end Spinel
