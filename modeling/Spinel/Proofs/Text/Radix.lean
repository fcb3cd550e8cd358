import Mathlib.Data.Nat.Digits.Defs
import Spinel.Proofs.Text.Numeral

/-!
# Numerals in any base

Each digit has its value (`digitChars`), and digits in a row stand for a number in a base
(`numeralValue`). A numeral (`IsNumeral`) has no zeros in front. An integer is written as its sign
and the numeral of its magnitude, in base ten (`isNumeral_toDigits`) and in the others
(`isNumeral_digitsOnto`), also if it is the least one (`exists_isNumeral_radixText`).
-/

namespace Spinel.Text

/-- The digits of all bases, each at the place of its value. -/
def digitChars : List Char := "0123456789abcdefghijklmnopqrstuvwxyz".toList

/-- The number that digits stand for in a base. The last counts once, and each other one counts
`base` times as much as it would one place further back. -/
def numeralValue (base : Nat) (digits : List Char) : Nat :=
  Nat.ofDigits base (digits.map digitChars.idxOf).reverse

/-- Digits are the numeral of a number in a base. -/
structure IsNumeral (base n : Nat) (digits : List Char) : Prop where
  nonempty : digits ≠ []
  below : ∀ c ∈ digits, c ∈ digitChars.take base
  -- Only zero itself has a zero in front.
  unpadded : digits.head? = some '0' → digits = ['0']
  value : numeralValue base digits = n

variable {base n d : Nat} {digits : List Char}

/-! ## The value of digits -/

@[simp] theorem numeralValue_nil (base : Nat) : numeralValue base [] = 0 := rfl

theorem numeralValue_append (base : Nat) (digits more : List Char) :
    numeralValue base (digits ++ more) =
      numeralValue base digits * base ^ more.length + numeralValue base more := by
  unfold numeralValue
  rw [List.map_append, List.reverse_append, Nat.ofDigits_append, List.length_reverse,
    List.length_map, Nat.add_comm, Nat.mul_comm]

@[simp] theorem numeralValue_singleton (base : Nat) (c : Char) :
    numeralValue base [c] = digitChars.idxOf c :=
  Nat.ofDigits_singleton

theorem numeralValue_push (base : Nat) (digits : List Char) (c : Char) :
    numeralValue base (digits ++ [c]) = numeralValue base digits * base + digitChars.idxOf c := by
  rw [numeralValue_append, numeralValue_singleton, List.length_singleton, Nat.pow_one]

/-! ## Single digits -/

/-- A digit that is written stands at the place of its value. -/
theorem digitChars_getElem? (hd : d < 36) : digitChars[d]? = some (digitsOnto.digitOf d) := by
  have hall : (List.range 36).all fun d => digitChars[d]? = some (digitsOnto.digitOf d) := by decide
  exact of_decide_eq_true (List.all_eq_true.1 hall d (List.mem_range.2 hd))

theorem idxOf_digitOf (hd : d < 36) : digitChars.idxOf (digitsOnto.digitOf d) = d := by
  have hall : (List.range 36).all fun d => digitChars.idxOf (digitsOnto.digitOf d) = d := by decide
  exact of_decide_eq_true (List.all_eq_true.1 hall d (List.mem_range.2 hd))

theorem digitChar_eq_digitOf (hd : d < 10) : d.digitChar = digitsOnto.digitOf d := by
  have hall : (List.range 10).all fun d => d.digitChar = digitsOnto.digitOf d := by decide
  exact of_decide_eq_true (List.all_eq_true.1 hall d (List.mem_range.2 hd))

theorem digitOf_mem_take (hd : d < base) (hhigh : base ≤ 36) :
    digitsOnto.digitOf d ∈ digitChars.take base := by
  have hat : (digitChars.take base)[d]? = some (digitsOnto.digitOf d) := by
    rw [List.getElem?_take_of_lt hd, digitChars_getElem? (Nat.lt_of_lt_of_le hd hhigh)]
  exact List.mem_of_getElem? hat

/-! ## Numerals -/

/-- A number below the base is one digit. -/
theorem isNumeral_digit (hd : d < base) (hhigh : base ≤ 36) :
    IsNumeral base d [digitsOnto.digitOf d] where
  nonempty := List.cons_ne_nil _ _
  below c hc := List.mem_singleton.1 hc ▸ digitOf_mem_take hd hhigh
  unpadded h := congrArg (fun c => [c]) (Option.some.inj h)
  value := by rw [numeralValue_singleton, idxOf_digitOf (Nat.lt_of_lt_of_le hd hhigh)]

/-- A digit goes behind the numeral of a number that is not zero. -/
theorem IsNumeral.push (h : IsNumeral base n digits) (hn : n ≠ 0) (hd : d < base)
    (hhigh : base ≤ 36) : IsNumeral base (n * base + d) (digits ++ [digitsOnto.digitOf d]) where
  nonempty := List.append_ne_nil_of_left_ne_nil h.nonempty _
  below c hc := by
    rcases List.mem_append.1 hc with hc | hc
    · exact h.below c hc
    · exact List.mem_singleton.1 hc ▸ digitOf_mem_take hd hhigh
  unpadded hzero := by
    rw [List.head?_append, Option.or_of_isSome (List.isSome_head?.2 h.nonempty)] at hzero
    have hvalue := h.value
    rw [h.unpadded hzero, numeralValue_singleton] at hvalue
    exact absurd hvalue.symm hn
  value := by rw [numeralValue_push, h.value, idxOf_digitOf (Nat.lt_of_lt_of_le hd hhigh)]

/-- The last digit of a number goes behind the numeral of the rest. -/
theorem IsNumeral.push_mod (hbase : 2 ≤ base) (hhigh : base ≤ 36) (hn : base ≤ n)
    (h : IsNumeral base (n / base) digits) :
    IsNumeral base n (digits ++ [digitsOnto.digitOf (n % base)]) := by
  have hdiv : n / base ≠ 0 := (Nat.div_pos hn (by omega)).ne'
  have hpush := h.push hdiv (Nat.mod_lt n (by omega)) hhigh
  rwa [Nat.div_add_mod'] at hpush

/-! ## Writing -/

/-- Decimal digits are a numeral in base ten. -/
theorem isNumeral_toDigits (n : Nat) : IsNumeral 10 n (Nat.toDigits 10 n) := by
  induction n using Nat.strongRecOn with
  | ind n ih =>
    rw [Nat.toDigits_eq_if (by decide)]
    split
    · next hlt =>
      rw [digitChar_eq_digitOf hlt]
      exact isNumeral_digit hlt (by decide)
    · next hge =>
      rw [digitChar_eq_digitOf (Nat.mod_lt n (by decide))]
      exact (ih (n / 10) (by omega)).push_mod (by decide) (by decide) (Nat.le_of_not_lt hge)

theorem digitsOnto_of_lt {fuel : Nat} (hn : n < base) (acc : List Char) :
    digitsOnto base (fuel + 1) n acc = digitsOnto.digitOf n :: acc := by
  rw [digitsOnto, if_pos (Nat.div_eq_of_lt hn), Nat.mod_eq_of_lt hn]

/-- Digits that are written from the last to the first are a numeral in front of what was written
before, if there is place for all of them. -/
theorem isNumeral_digitsOnto (hlow : 2 ≤ base) (hhigh : base ≤ 36) {fuel : Nat}
    (hn : n < base ^ (fuel + 1)) (acc : List Char) :
    ∃ digits, IsNumeral base n digits ∧ digitsOnto base (fuel + 1) n acc = digits ++ acc := by
  induction fuel generalizing n acc with
  | zero =>
    rw [Nat.zero_add, Nat.pow_one] at hn
    exact ⟨_, isNumeral_digit hn hhigh, digitsOnto_of_lt hn acc⟩
  | succ fuel ih =>
    by_cases hlt : n < base
    · exact ⟨_, isNumeral_digit hlt hhigh, digitsOnto_of_lt hlt acc⟩
    · have hge := Nat.le_of_not_lt hlt
      have hfits : n / base < base ^ (fuel + 1) :=
        Nat.div_lt_of_lt_mul (by rwa [← Nat.pow_succ'])
      obtain ⟨digits, hdigits, heq⟩ := ih hfits (digitsOnto.digitOf (n % base) :: acc)
      refine ⟨_, hdigits.push_mod hlow hhigh hge, ?_⟩
      rw [digitsOnto, if_neg (Nat.div_pos hge (by omega)).ne', heq, List.append_assoc]
      rfl

/-- An integer is written as its sign and the numeral of its magnitude. In base two there is place
for the sixty-four digits of the least integer. -/
theorem exists_isNumeral_radixText (hlow : 2 ≤ base) (hhigh : base ≤ 36) (x : Int64) :
    ∃ digits, IsNumeral base x.toInt.natAbs digits ∧
      radixText x base = String.ofList ((if x.toInt < 0 then ['-'] else []) ++ digits) := by
  rw [radixText]
  split
  · next hten =>
    subst hten
    refine ⟨_, isNumeral_toDigits x.toInt.natAbs, ?_⟩
    rw [← toList_toString, String.ofList_toList]
  · have hleast := x.le_toInt
    have hgreatest := x.toInt_lt
    have hfits : x.toInt.natAbs < base ^ 64 :=
      calc x.toInt.natAbs < 2 ^ 64 := by omega
        _ ≤ base ^ 64 := Nat.pow_le_pow_left hlow 64
    obtain ⟨digits, hdigits, heq⟩ := isNumeral_digitsOnto hlow hhigh hfits []
    refine ⟨digits, hdigits, ?_⟩
    rw [heq, List.append_nil]
    split <;> rfl

end Spinel.Text
