import Spinel.Decimal.Nearest
import Spinel.Number.Integer
import Spinel.Text.Words

/-!
# Numerals

Reading the number at the front of a text, and writing integers in any base from two to thirty-six.
-/

namespace Spinel.Text

/-- The number that decimal digits stand for. -/
def decimalValue (digits : List Char) : Nat :=
  digits.foldl (fun n c => n * 10 + (c.toNat - 48)) 0

/-- Take off a sign, and say whether it was a minus. -/
def takeSign : List Char → Bool × List Char
  | '-' :: cs => (true, cs)
  | '+' :: cs => (false, cs)
  | cs => (false, cs)

/-- Write one more digit at the end of an integer, in the direction of its sign. -/
def pushDigit (negative : Bool) (x : Int64) (c : Char) : Option Int64 := do
  let digit : Int64 := .ofNat (c.toNat - 48)
  let tens ← Integer.multiply x 10
  Integer.add tens (if negative then -digit else digit)

/-- Read on behind the digits of `x`, among which single underscores may stand behind a digit.
Nothing as soon as the integer does not fit. -/
def integerFrom (negative : Bool) : (behindDigit : Bool) → (x : Int64) → List Char → Option Int64
  | _, x, [] => some x
  | behindDigit, x, c :: cs =>
    if c.isDigit then (pushDigit negative x c).bind fun y => integerFrom negative true y cs
    else if c = '_' && behindDigit then integerFrom negative false x cs
    else some x

/-- The integer at the front of a text, zero if there is none, and nothing if it is out of range. -/
def leadingInteger (cs : List Char) : Option Int64 :=
  let (negative, rest) := takeSign (trimStart cs)
  integerFrom negative false 0 rest

/-- The digits in front, and the rest. -/
def takeDigits (cs : List Char) : List Char × List Char :=
  (cs.takeWhile Char.isDigit, cs.dropWhile Char.isDigit)

/-- The digits behind a point, if there are any, and the rest. -/
def takeFraction : List Char → List Char × List Char
  | '.' :: cs =>
    match takeDigits cs with
    | ([], _) => ([], '.' :: cs)
    | found => found
  | cs => ([], cs)

/-- The exponent in front, zero if there is none. -/
def leadingExponent : List Char → Int
  | c :: cs =>
    if c = 'e' || c = 'E' then
      let (negative, rest) := takeSign cs
      let magnitude : Int := decimalValue (takeDigits rest).1
      if negative then -magnitude else magnitude
    else 0
  | [] => 0

/-- The float at the front of a text, zero if there is none. -/
def leadingFloat (cs : List Char) : Float :=
  let (negative, rest) := takeSign (trimStart cs)
  match takeDigits rest with
  | ([], _) => 0.0
  | (whole, rest) =>
    let (part, rest) := takeFraction rest
    Binary64.ofDecimal negative (decimalValue (whole ++ part))
      (leadingExponent rest - (part.length : Int))

/-- The digits of a number in a base, the lowest last, in front of others. At most `fuel` digits are
written. -/
def digitsOnto (base : Nat) : (fuel : Nat) → Nat → List Char → List Char
  | 0, _, acc => acc
  | fuel + 1, n, acc =>
    let acc := digitOf (n % base) :: acc
    if n / base = 0 then acc else digitsOnto base fuel (n / base) acc
where
  /-- A digit: a decimal one, or a letter. -/
  digitOf (d : Nat) : Char := if d < 10 then Char.ofNat (48 + d) else Char.ofNat (87 + d)

/-- An integer in a base from two to thirty-six. Base ten has its own way. -/
def radixText (x : Int64) (base : Nat) : String :=
  if base = 10 then toString x
  else
    let digits := digitsOnto base 64 x.toInt.natAbs []
    String.ofList (if x.toInt < 0 then '-' :: digits else digits)

end Spinel.Text
