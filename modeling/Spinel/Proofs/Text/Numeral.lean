import Spinel.Proofs.Number.Bounded
import Spinel.Text.Numeral

/-!
# Numerals

The digits of a number stand for that number, and an integer is shown as the digits of its
magnitude.
-/

namespace Spinel

namespace Text

@[simp] theorem decimalValue_toDigits (n : Nat) : decimalValue (Nat.toDigits 10 n) = n := by
  have hstep : (fun n (c : Char) => n * 10 + (c.toNat - 48)) =
      fun n (c : Char) => 10 * n + (c.toNat - '0'.toNat) := by
    funext n c
    rw [Nat.mul_comm]
    rfl
  rw [decimalValue, hstep, ← Nat.ofDigitChars_eq_foldl, Nat.ofDigitChars_ten_toDigits]

theorem isDigit_of_mem_toDigits {n : Nat} {c : Char} (h : c ∈ Nat.toDigits 10 n) :
    c.isDigit = true :=
  Nat.isDigit_of_mem_toDigits (by decide) (by decide) h

theorem toList_toString (x : Int64) : (toString x).toList =
    (if x.toInt < 0 then ['-'] else []) ++ Nat.toDigits 10 x.toInt.natAbs := by
  have hrepr : (toString x).toList = x.toInt.repr.toList := rfl
  rw [hrepr, Int.repr_eq_if]
  split
  · next h =>
    rw [if_neg (by omega), Nat.toList_repr, List.nil_append]
    congr 1
    omega
  · next h =>
    rw [if_pos (by omega), String.toList_append, Nat.toList_repr]
    congr 2
    omega

end Text

end Spinel
