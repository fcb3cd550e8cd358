import Mathlib.Data.Rat.Floor
import Mathlib.Tactic.Linarith
import Spinel.Number.Integer
import Spinel.Proofs.Number.Bounded

/-!
# Integer arithmetic is exact

Division, powers and shifts of integers of sixty-four bits are worked out in steps that could leave
these integers. Where a step does, so does the exact result, and otherwise the exact result is
found: the quotient rounded down (`floorDivide_eq`), the power (`power_eq`), the product with a
power of two (`shiftLeft_eq`, `shiftRight_eq`).
-/

namespace Spinel.Integer

variable {x y : Int64}

/-! ## Division -/

theorem toInt_eq_zero_iff : y.toInt = 0 ↔ y = 0 := Int64.toInt_inj (y := 0)

theorem neg_iff : x < 0 ↔ x.toInt < 0 := Int64.lt_iff_toInt_lt (y := 0)

theorem signsDiffer_iff : signsDiffer x y ↔ (x.toInt < 0 ↔ 0 ≤ y.toInt) := by
  unfold signsDiffer
  rw [bne_iff_ne, Ne, decide_eq_decide, neg_iff, neg_iff]
  omega

theorem mod_ne_zero_iff : x % y ≠ 0 ↔ ¬y.toInt ∣ x.toInt := by
  rw [Int.dvd_iff_tmod_eq_zero, ← Int64.toInt_mod, toInt_eq_zero_iff]

/-- A divisor other than one and minus one makes the quotient small. -/
theorem natAbs_tdiv_le {a b : Int} (h : b.natAbs ≠ 1) : (a.tdiv b).natAbs ≤ a.natAbs / 2 := by
  have hcases : b.natAbs = 0 ∨ 2 ≤ b.natAbs := by omega
  rw [Int.natAbs_tdiv]
  change a.natAbs / b.natAbs ≤ _
  rcases hcases with hzero | htwo
  · rw [hzero, Nat.div_zero]
    exact Nat.zero_le _
  · exact Nat.div_le_div_left htwo (by decide)

theorem natAbs_ne_one_of_mod_ne_zero (h : x % y ≠ 0) : y.toInt.natAbs ≠ 1 :=
  fun hone => mod_ne_zero_iff.1 h (Int.natAbs_dvd.1 (hone ▸ one_dvd _))

/-- One quotient alone does not fit. -/
theorem divide_eq_none_iff : divide x y = none ↔ x = Int64.minValue ∧ y = -1 := by
  have hlow := x.le_toInt
  have hhigh := x.toInt_lt
  have hmin := Int64.toInt_minValue
  have hone : (-1 : Int64).toInt = -1 := rfl
  unfold divide
  rw [int64?_eq_none_iff, ← Int64.toInt_inj, ← Int64.toInt_inj, hmin, hone]
  by_cases hunit : y.toInt.natAbs = 1
  · rcases Int.natAbs_eq_iff.1 hunit with hy | hy <;> rw [hy]
    · rw [Nat.cast_one, Int.tdiv_one]
      omega
    · rw [Nat.cast_one, Int.tdiv_neg, Int.tdiv_one]
      omega
  · have hhalf := natAbs_tdiv_le (a := x.toInt) hunit
    omega

/-- No step of a floored division leaves the integers of sixty-four bits: the remainder is only
taken where the quotient is one of them, and neither one less nor the sum with the divisor wraps
where it is used. -/
structure StepsFit (x y : Int64) : Prop where
  remainder : divide x y ≠ none → ¬(x = Int64.minValue ∧ y = -1)
  lessOne : ∀ q, divide x y = some q → x % y ≠ 0 → signsDiffer x y → (q - 1).toInt = q.toInt - 1
  plusDivisor : x % y ≠ 0 → signsDiffer (x % y) y → (x % y + y).toInt = (x % y).toInt + y.toInt

theorem stepsFit (x y : Int64) : StepsFit x y where
  remainder := mt divide_eq_none_iff.2
  lessOne q hq hr hs := by
    have hlow := x.le_toInt
    have hhigh := x.toInt_lt
    have hhalf := natAbs_tdiv_le (a := x.toInt) (natAbs_ne_one_of_mod_ne_zero hr)
    have hone : (1 : Int64).toInt = 1 := rfl
    rw [← int64?_eq_some_iff.1 hq] at hhalf
    rw [Int64.toInt_sub, hone]
    apply Int.bmod_eq_of_le <;> omega
  plusDivisor hr hs := by
    have hdiffer := signsDiffer_iff.1 hs
    have hlow := y.le_toInt
    have hhigh := y.toInt_lt
    have hlow' := (x % y).le_toInt
    have hhigh' := (x % y).toInt_lt
    rw [Int64.toInt_add]
    apply Int.bmod_eq_of_le <;> omega

theorem fdiv_of_not_dvd {a b : Int} (h : ¬b ∣ a) (hb : b ≠ 0) :
    a.fdiv b = if a < 0 ↔ 0 ≤ b then a.tdiv b - 1 else a.tdiv b := by
  rw [Int.fdiv_eq_tdiv, if_neg h]
  rcases lt_or_gt_of_ne hb with hb | hb
  · rw [Int.sign_eq_neg_one_of_neg hb]
    split_ifs <;> omega
  · rw [Int.sign_eq_one_of_pos hb]
    split_ifs <;> omega

theorem fmod_of_not_dvd {a b : Int} (h : ¬b ∣ a) :
    a.fmod b = if a < 0 ↔ 0 ≤ b then a.tmod b + b else a.tmod b := by
  rw [Int.fmod_eq_tmod, if_neg h]
  split_ifs <;> omega

/-- A remainder of the division rounded toward zero has the sign of what is divided. -/
theorem tmod_neg_iff {a b : Int} (h : ¬b ∣ a) : a.tmod b < 0 ↔ a < 0 := by
  rw [← Int.sign_eq_neg_one_iff_neg, Int.sign_tmod, if_neg h, Int.sign_eq_neg_one_iff_neg]

/-- The quotient is the exact one rounded down. -/
theorem floorDivide_eq (hy : y ≠ 0) : floorDivide x y = int64? (x.toInt.fdiv y.toInt) := by
  unfold floorDivide
  cases hq : divide x y with
  | none =>
    obtain ⟨rfl, rfl⟩ := divide_eq_none_iff.1 hq
    rfl
  | some q =>
    have hquotient : q.toInt = x.toInt.tdiv y.toInt := int64?_eq_some_iff.1 hq
    refine Eq.symm (int64?_eq_some_iff.2 ?_)
    by_cases hr : x % y = 0
    · have hdvd : y.toInt ∣ x.toInt := by_contra fun h => mod_ne_zero_iff.2 h hr
      rw [if_neg (by simp [hr]), Int.fdiv_eq_tdiv, if_pos hdvd, sub_zero, hquotient]
    · rw [fdiv_of_not_dvd (mod_ne_zero_iff.1 hr) (mt toInt_eq_zero_iff.1 hy), ← hquotient]
      by_cases hs : signsDiffer x y
      · rw [if_pos (by simp [hr, hs]), if_pos (signsDiffer_iff.1 hs),
          (stepsFit x y).lessOne q hq hr hs]
      · rw [if_neg (by simp [hs]), if_neg (mt signsDiffer_iff.2 hs)]

theorem floorDivide_eq_none_iff : floorDivide x y = none ↔ x = Int64.minValue ∧ y = -1 := by
  rw [← divide_eq_none_iff, floorDivide]
  cases divide x y with
  | none => exact iff_of_true rfl rfl
  | some q => exact iff_of_false nofun nofun

/-- The remainder is that of the exact quotient rounded down. -/
theorem toInt_floorModulo (x y : Int64) :
    (floorModulo x y).toInt = x.toInt.fmod y.toInt := by
  unfold floorModulo
  dsimp only
  by_cases hr : x % y = 0
  · have hdvd : y.toInt ∣ x.toInt := by_contra fun h => mod_ne_zero_iff.2 h hr
    rw [if_neg (by simp [hr]), Int.fmod_eq_tmod, if_pos hdvd, add_zero, Int64.toInt_mod]
  · have hdvd := mod_ne_zero_iff.1 hr
    have hsign : signsDiffer (x % y) y ↔ (x.toInt < 0 ↔ 0 ≤ y.toInt) := by
      rw [signsDiffer_iff, Int64.toInt_mod, tmod_neg_iff hdvd]
    rw [fmod_of_not_dvd hdvd, ← Int64.toInt_mod]
    by_cases hs : signsDiffer (x % y) y
    · rw [if_pos (by simp [hr, hs]), if_pos (hsign.1 hs), (stepsFit x y).plusDivisor hr hs]
    · rw [if_neg (by simp [hs]), if_neg (mt hsign.2 hs)]

/-- The remainder of the quotient rounded down is smaller than the divisor and has its sign. -/
theorem fmod_bounds {a b : Int} (hb : b ≠ 0) :
    (a.fmod b).natAbs < b.natAbs ∧ (a.fmod b = 0 ∨ (a.fmod b).sign = b.sign) := by
  by_cases hdvd : b ∣ a
  · rw [Int.fmod_eq_zero_of_dvd hdvd]
    exact ⟨Int.natAbs_pos.2 hb, .inl rfl⟩
  · have hne : a.tmod b ≠ 0 := mt Int.dvd_of_tmod_eq_zero hdvd
    have hlt : (a.tmod b).natAbs < b.natAbs := by
      rw [Int.natAbs_tmod]
      exact Nat.mod_lt _ (Int.natAbs_pos.2 hb)
    have hsign := tmod_neg_iff hdvd
    rw [fmod_of_not_dvd hdvd]
    rcases lt_or_gt_of_ne hb with hneg | hpos
    · rw [Int.sign_eq_neg_one_of_neg hneg, Int.sign_eq_neg_one_iff_neg]
      split_ifs <;> omega
    · rw [Int.sign_eq_one_of_pos hpos, Int.sign_eq_one_iff_pos]
      split_ifs <;> omega

/-! ## Powers -/

/-- What does not fit does not fit either when it is multiplied. -/
theorem int64?_mul_eq_none {z p : Int} (hz : int64? z = none) (hp : 0 < p) :
    int64? (z * p) = none := by
  rw [int64?_eq_none_iff] at hz ⊢
  rcases hz with hz | hz
  · exact .inl (by nlinarith)
  · exact .inr (by nlinarith)

theorem int64?_eq_none_of_lt_natAbs {z : Int} (h : 2 ^ 63 < z.natAbs) : int64? z = none :=
  int64?_eq_none_iff.2 (by omega)

/-- No square is just one too large, so its opposite does not fit either. -/
theorem lt_mul_self_of_multiply_eq_none (h : multiply x x = none) :
    2 ^ 63 < x.toInt * x.toInt := by
  by_cases hsmall : -3037000499 ≤ x.toInt ∧ x.toInt ≤ 3037000499
  · rcases int64?_eq_none_iff.1 h with h | h <;> nlinarith
  · have hroot : 3037000500 ≤ x.toInt ∨ x.toInt ≤ -3037000500 := by omega
    rcases hroot with hroot | hroot <;> nlinarith

theorem pow_eq_square_pow (a : Int) (n : Nat) : a ^ n = a ^ (n % 2) * (a * a) ^ (n / 2) := by
  rw [← pow_two, ← pow_mul, ← pow_add, Nat.mod_add_div]

/-- Squaring and multiplying finds the power, and gives up only where that does not fit. -/
theorem powerFrom_eq {bits n : Nat} {r : Int64} (hn : n < 2 ^ bits) (hr : x ≠ 0 → r ≠ 0) :
    powerFrom bits x n r = int64? (r.toInt * x.toInt ^ n) := by
  induction bits generalizing x n r with
  | zero =>
    obtain rfl : n = 0 := by omega
    rw [pow_zero, mul_one, int64?_toInt]
    rfl
  | succ bits ih =>
    have hfirst : (if n % 2 = 1 then multiply r x else some r) =
        int64? (r.toInt * x.toInt ^ (n % 2)) := by
      rcases Nat.mod_two_eq_zero_or_one n with hmod | hmod <;> rw [hmod]
      · rw [if_neg (by decide), pow_zero, mul_one, int64?_toInt]
      · rw [if_pos rfl, pow_one, multiply]
    have hpos : x ≠ 0 → 0 < (x.toInt * x.toInt) ^ (n / 2) := fun hx =>
      pow_pos (mul_self_pos.2 (mt toInt_eq_zero_iff.1 hx)) _
    unfold powerFrom
    rw [hfirst, pow_eq_square_pow x.toInt n, ← mul_assoc]
    cases hprod : int64? (r.toInt * x.toInt ^ (n % 2)) with
    | none =>
      have hx : x ≠ 0 := by
        rintro rfl
        rw [← hfirst] at hprod
        split at hprod
        · rw [multiply, toInt_eq_zero_iff.2 rfl, mul_zero] at hprod
          cases hprod
        · cases hprod
      exact (int64?_mul_eq_none hprod (hpos hx)).symm
    | some r' =>
      have hr' := int64?_eq_some_iff.1 hprod
      have hne : x ≠ 0 → r'.toInt ≠ 0 := fun hx => by
        rw [hr']
        exact mul_ne_zero (mt toInt_eq_zero_iff.1 (hr hx))
          (pow_ne_zero _ (mt toInt_eq_zero_iff.1 hx))
      rw [← hr']
      change (if n / 2 = 0 then some r' else _) = _
      split
      · next hhalf => rw [hhalf, pow_zero, mul_one, int64?_toInt]
      · next hhalf =>
        cases hsquare : multiply x x with
        | none =>
          have hlarge := lt_mul_self_of_multiply_eq_none hsquare
          have hx : x ≠ 0 := by
            rintro rfl
            cases hsquare
          have hgrows : x.toInt * x.toInt ≤ (x.toInt * x.toInt) ^ (n / 2) :=
            le_self_pow₀ (by omega) hhalf
          refine (int64?_eq_none_iff.2 ?_).symm
          rcases lt_or_gt_of_ne (hne hx) with hneg | hpos
          · exact .inl (by nlinarith)
          · exact .inr (by nlinarith)
        | some s =>
          change powerFrom bits s (n / 2) r' = _
          have hs := int64?_eq_some_iff.1 hsquare
          have hkept : s ≠ 0 → r' ≠ 0 := fun hs0 => by
            refine mt toInt_eq_zero_iff.2 (hne ?_)
            rintro rfl
            exact hs0 (toInt_eq_zero_iff.1 hs)
          rw [ih (by omega) hkept, hs]

theorem int64?_pow_eq_none {a : Int} {n : Nat} (ha : 2 ≤ a.natAbs) (hn : 64 ≤ n) :
    int64? (a ^ n) = none := by
  refine int64?_eq_none_of_lt_natAbs ?_
  rw [Int.natAbs_pow]
  calc 2 ^ 63 < 2 ^ 64 := by decide
    _ ≤ 2 ^ n := Nat.pow_le_pow_right (by decide) hn
    _ ≤ a.natAbs ^ n := Nat.pow_le_pow_left ha n

/-- A power is the exact one. -/
theorem power_eq (x : Int64) (n : Nat) : power x n = int64? (x.toInt ^ n) := by
  have hone : (1 : Int64).toInt = 1 := rfl
  have hminus : (-1 : Int64).toInt = -1 := rfl
  unfold power
  split
  · next hn => rw [powerFrom_eq hn fun _ => by decide, hone, one_mul]
  · next hn =>
    have hn : 2 ^ 32 ≤ n := Nat.le_of_not_lt hn
    split_ifs with hx hx' heven
    · rcases hx with rfl | rfl
      · rw [toInt_eq_zero_iff.2 rfl, zero_pow (by omega)]
        rfl
      · rw [hone, one_pow]
        rfl
    · rw [hx', hminus, pow_eq_square_pow, heven, neg_mul_neg, one_mul, one_pow]
      rfl
    · rw [hx', hminus, pow_eq_square_pow, Nat.mod_two_ne_zero.1 heven, neg_mul_neg, one_mul,
        one_pow]
      rfl
    · refine (int64?_pow_eq_none ?_ (by omega)).symm
      rw [not_or] at hx
      rw [← Int64.toInt_inj, ← Int64.toInt_inj, hone, toInt_eq_zero_iff.2 rfl] at hx
      rw [← Int64.toInt_inj, hminus] at hx'
      omega

/-! ## Shifts -/

/-- The product with a power of two, rounded down where the exponent is negative. -/
def shifted (x n : Int) : Int := ⌊(x : ℚ) * 2 ^ n⌋

theorem shifted_natCast (x : Int) (k : Nat) : shifted x k = x * 2 ^ k := by
  have hcast : (x : ℚ) * 2 ^ (k : Int) = (x * 2 ^ k : Int) := by push_cast; rfl
  rw [shifted, hcast, Int.floor_intCast]

theorem shifted_neg_natCast (x : Int) (k : Nat) : shifted x (-k) = x / 2 ^ k := by
  have hcast : (x : ℚ) * 2 ^ (-k : Int) = x / (2 ^ k : Nat) := by
    rw [zpow_neg, zpow_natCast, div_eq_mul_inv]
    push_cast
    rfl
  rw [shifted, hcast, Rat.floor_intCast_div_natCast]
  push_cast
  rfl

variable {n : Int64} {k : Nat}

/-- A shift by a count below sixty-four takes the count as it is. -/
theorem toNat_smod (hk : n.toInt = k) (hlt : k < 64) : (n.toBitVec.smod 64).toNat = k := by
  have hwidth : (64 : BitVec 64).toInt = 64 := rfl
  have hsmod : (n.toBitVec.smod 64).toInt = k := by
    rw [BitVec.toInt_smod, Int64.toInt_toBitVec, hk, hwidth]
    exact Int.fmod_eq_of_lt (by omega) (by omega)
  have hbound := (n.toBitVec.smod 64).isLt
  rw [BitVec.toInt_eq_toNat_cond] at hsmod
  split at hsmod <;> omega

theorem toInt_shiftLeft (hk : n.toInt = k) (hlt : k < 64) :
    (x <<< n).toInt = (x.toInt * 2 ^ k).bmod (2 ^ 64) := by
  rw [← Int64.toInt_toBitVec, Int64.toBitVec_shiftLeft, BitVec.shiftLeft_eq', toNat_smod hk hlt,
    BitVec.toInt_shiftLeft, ← Int64.toInt_toBitVec, BitVec.toInt_eq_toNat_bmod, Int.bmod_mul_bmod,
    Nat.shiftLeft_eq]
  norm_cast

theorem toInt_shiftRight (hk : n.toInt = k) (hlt : k < 64) :
    (x >>> n).toInt = x.toInt / 2 ^ k := by
  rw [← Int64.toInt_toBitVec, Int64.toBitVec_shiftRight, BitVec.sshiftRight_eq', toNat_smod hk hlt,
    BitVec.toInt_sshiftRight, Int64.toInt_toBitVec, Int.shiftRight_eq_div_pow]
  norm_cast

/-- Shifting to the left and back gives the same again exactly if nothing was lost. -/
theorem shiftLeft_shiftRight_iff (hk : n.toInt = k) (hlt : k < 64) :
    (x <<< n) >>> n = x ↔ (x <<< n).toInt = x.toInt * 2 ^ k := by
  have hpos : (0 : Int) < 2 ^ k := by positivity
  have hdvd : (2 : Int) ^ k ∣ (x <<< n).toInt := by
    have hsplit := Int.bmod_add_bdiv (x.toInt * 2 ^ k) (2 ^ 64)
    have hmodulus : (2 : Int) ^ k ∣ (2 ^ 64 : Nat) * (x.toInt * 2 ^ k).bdiv (2 ^ 64) :=
      Dvd.dvd.mul_right (pow_dvd_pow 2 hlt.le) _
    rw [toInt_shiftLeft hk hlt, ← dvd_add_left hmodulus, hsplit]
    exact dvd_mul_left _ _
  rw [← Int64.toInt_inj, toInt_shiftRight hk hlt, Int.ediv_eq_iff_eq_mul_left hpos.ne' hdvd]

/-- `n` stands for the count `k` of a shift: all counts from sixty-four on are alike. -/
def Counts (n : Int64) (k : Nat) : Prop := min n.toInt 64 = min (k : Int) 64

theorem counts_of_nonneg (h : 0 ≤ n.toInt) : Counts n n.toInt.natAbs := by
  unfold Counts
  omega

theorem counts_opposite (h : n.toInt < 0) : Counts (opposite n) n.toInt.natAbs := by
  have hlow := n.le_toInt
  have hmax := Int64.toInt_maxValue
  unfold Counts opposite negate
  cases hn : int64? (-n.toInt) with
  | none =>
    have := int64?_eq_none_iff.1 hn
    rw [Option.getD_none]
    omega
  | some m =>
    have := int64?_eq_some_iff.1 hn
    rw [Option.getD_some]
    omega

theorem Counts.of_le (h : Counts n k) (hn : 64 ≤ n) : 64 ≤ k := by
  have hn : 64 ≤ n.toInt := Int64.le_iff_toInt_le.1 hn
  unfold Counts at h
  omega

theorem Counts.of_lt (h : Counts n k) (hn : ¬64 ≤ n) : n.toInt = k ∧ k < 64 := by
  have hn : ¬64 ≤ n.toInt := mt (Int64.le_iff_toInt_le (x := 64)).2 hn
  unfold Counts at h
  omega

theorem two_pow_le (h : 64 ≤ k) : (2 : Int) ^ 64 ≤ 2 ^ k := pow_le_pow_right₀ (by decide) h

theorem shiftLeftBy_eq (hk : Counts n k) : shiftLeftBy x n = int64? (x.toInt * 2 ^ k) := by
  unfold shiftLeftBy
  split_ifs with hx hn hback
  · rw [hx, toInt_eq_zero_iff.2 rfl, zero_mul]
    rfl
  · have hpow := two_pow_le (hk.of_le hn)
    refine (int64?_eq_none_iff.2 ?_).symm
    rcases lt_or_gt_of_ne (mt toInt_eq_zero_iff.1 hx) with hneg | hpos
    · exact .inl (by nlinarith)
    · exact .inr (by nlinarith)
  · obtain ⟨heq, hlt⟩ := hk.of_lt hn
    exact (int64?_eq_some_iff.2 ((shiftLeft_shiftRight_iff heq hlt).1 hback)).symm
  · obtain ⟨heq, hlt⟩ := hk.of_lt hn
    cases hfits : int64? (x.toInt * 2 ^ k) with
    | none => rfl
    | some r =>
      have hr := int64?_eq_some_iff.1 hfits
      refine absurd ((shiftLeft_shiftRight_iff heq hlt).2 ?_) hback
      rw [toInt_shiftLeft heq hlt, ← hr]
      exact Int.bmod_eq_of_le r.le_toInt r.toInt_lt

theorem toInt_shiftRightBy (hk : Counts n k) : (shiftRightBy x n).toInt = x.toInt / 2 ^ k := by
  have hlow := x.le_toInt
  have hhigh := x.toInt_lt
  unfold shiftRightBy
  split_ifs with hn hx
  · have hpow := two_pow_le (hk.of_le hn)
    have hneg : x.toInt < 0 := neg_iff.1 hx
    have hlt : x.toInt / 2 ^ k < 0 := Int.ediv_neg_of_neg_of_pos hneg (by omega)
    have hle : -1 ≤ x.toInt / 2 ^ k := Int.le_ediv_of_mul_le (by omega) (by omega)
    change -1 = _
    omega
  · have hpow := two_pow_le (hk.of_le hn)
    have hnonneg : 0 ≤ x.toInt := Int.not_lt.1 (mt neg_iff.2 hx)
    exact (Int.ediv_eq_zero_of_lt hnonneg (by omega)).symm
  · obtain ⟨heq, hlt⟩ := hk.of_lt hn
    exact toInt_shiftRight heq hlt

theorem shiftLeft_eq (x n : Int64) : shiftLeft x n = int64? (shifted x.toInt n.toInt) := by
  unfold shiftLeft
  split_ifs with hn
  · have hneg : n.toInt < 0 := neg_iff.1 hn
    have habs : n.toInt = -(n.toInt.natAbs : Int) := by omega
    rw [habs, shifted_neg_natCast, ← toInt_shiftRightBy (counts_opposite hneg), int64?_toInt]
  · have hnonneg : 0 ≤ n.toInt := Int.not_lt.1 (mt neg_iff.2 hn)
    have habs : n.toInt = n.toInt.natAbs := by omega
    rw [habs, shifted_natCast, ← shiftLeftBy_eq (counts_of_nonneg hnonneg)]

theorem shiftRight_eq (x n : Int64) : shiftRight x n = int64? (shifted x.toInt (-n.toInt)) := by
  unfold shiftRight
  split_ifs with hn
  · have hneg : n.toInt < 0 := neg_iff.1 hn
    have habs : -n.toInt = n.toInt.natAbs := by omega
    rw [habs, shifted_natCast, ← shiftLeftBy_eq (counts_opposite hneg)]
  · have hnonneg : 0 ≤ n.toInt := Int.not_lt.1 (mt neg_iff.2 hn)
    have habs : n.toInt = n.toInt.natAbs := by omega
    rw [habs, shifted_neg_natCast, ← toInt_shiftRightBy (counts_of_nonneg hnonneg), int64?_toInt]

end Spinel.Integer
