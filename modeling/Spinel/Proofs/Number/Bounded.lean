import Mathlib.Algebra.Group.Int.Defs
import Mathlib.Algebra.Group.Nat.Defs
import Spinel.Number.Bounded

/-!
# Integers that fit

An integer that fits into sixty-four bits is kept as it is (`int64?_toInt`), and the others are
refused (`int64?_eq_none_iff`).
-/

namespace Spinel

theorem fitsInt64_iff {x : Int} : fitsInt64 x ↔ -2 ^ 63 ≤ x ∧ x < 2 ^ 63 := by
  simp only [fitsInt64, Int64.toInt_minValue, Int64.toInt_maxValue, Bool.and_eq_true,
    decide_eq_true_eq]
  omega

theorem int64?_of_fits {x : Int} (low : -2 ^ 63 ≤ x) (high : x < 2 ^ 63) :
    int64? x = some (.ofInt x) := by
  rw [int64?, if_pos (fitsInt64_iff.2 ⟨low, high⟩)]

@[simp] theorem int64?_toInt (x : Int64) : int64? x.toInt = some x := by
  rw [int64?_of_fits x.le_toInt x.toInt_lt, Int64.ofInt_toInt]

theorem int64?_eq_none_iff {x : Int} : int64? x = none ↔ x < -2 ^ 63 ∨ 2 ^ 63 ≤ x := by
  by_cases hfits : -2 ^ 63 ≤ x ∧ x < 2 ^ 63
  · rw [int64?_of_fits hfits.1 hfits.2]
    exact iff_of_false nofun (by omega)
  · rw [int64?, if_neg (mt fitsInt64_iff.1 hfits)]
    exact iff_of_true rfl (by omega)

/-- An integer that fits is found with its value, and no other is. -/
theorem int64?_eq_some_iff {x : Int} {r : Int64} : int64? x = some r ↔ r.toInt = x := by
  constructor
  · intro h
    have hfits : ¬(x < -2 ^ 63 ∨ 2 ^ 63 ≤ x) := fun hout => by
      rw [int64?_eq_none_iff.2 hout] at h
      cases h
    rw [int64?_of_fits (by omega) (by omega)] at h
    cases h
    exact Int64.toInt_ofInt_of_le (by omega) (by omega)
  · rintro rfl
    exact int64?_toInt r

theorem int64?_eq_none_iff_ne {x : Int} : int64? x = none ↔ ∀ r : Int64, r.toInt ≠ x := by
  rw [Option.eq_none_iff_forall_ne_some]
  exact forall_congr' fun r => not_congr int64?_eq_some_iff

end Spinel
