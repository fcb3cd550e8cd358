/-!
# Integers of sixty-four bits

The integers of programs. Arithmetic is done exactly and its result refused if it does not fit.
-/

namespace Spinel

/-- The integers that fit. -/
def fitsInt64 (x : Int) : Bool := Int64.minValue.toInt ≤ x && x ≤ Int64.maxValue.toInt

/-- An integer, if it fits. -/
def int64? (x : Int) : Option Int64 := if fitsInt64 x then some (.ofInt x) else none

/-- The nearest integer that fits. -/
def saturated (x : Int) : Int64 :=
  .ofInt (max Int64.minValue.toInt (min x Int64.maxValue.toInt))

theorem toInt_saturated (x : Int) :
    (saturated x).toInt = max Int64.minValue.toInt (min x Int64.maxValue.toInt) := by
  have hmin := Int64.toInt_minValue
  have hmax := Int64.toInt_maxValue
  unfold saturated
  apply Int64.toInt_ofInt_of_le <;> omega

end Spinel
