import Spinel.Proofs.Number.Exactness
import Spinel.Session

/-!
# Methods of integers

An operation on integers gives the exact result if that is an integer of sixty-four bits, and
overflows if it is none (`integer_operations_exact`). A division by anything but zero has a quotient
rounded down and a remainder with the sign of the divisor, which belong together
(`division_rounds_down`).
-/

namespace Spinel

/-- A computation gives an integer of sixty-four bits if there is one with the value, and overflows
if there is none. Either way it leaves the state as it is. -/
structure Run.GivesExactly (run : Run Value) (value : Int) (w : World) : Prop where
  ok : ∀ r : Int64, r.toInt = value → run w = .ok (.int r) w
  overflow : (∀ r : Int64, r.toInt ≠ value) → run w = .error (.failed { fault := .overflow }) w

open Run

theorem Run.givesExactly_of_eq {run : Run Value} {value : Int} {w : World}
    (h : run w = exactly (int64? value) w) : run.GivesExactly value w where
  ok r hr := by
    rw [h, int64?_eq_some_iff.2 hr]
    rfl
  overflow hnot := by
    rw [h, int64?_eq_none_iff_ne.2 hnot]
    rfl

namespace Arithmetic

/-! ## Operations with one result -/

/-- The operations of integers that have an integer as their exact result. -/
inductive Operation where
  | add | subtract | multiply | power | shiftLeft | shiftRight
  | negate | absolute | successor | predecessor

namespace Operation

def name : Operation → String
  | add => "+"
  | subtract => "-"
  | multiply => "*"
  | power => "**"
  | shiftLeft => "<<"
  | shiftRight => ">>"
  | negate => "-@"
  | absolute => "abs"
  | successor => "succ"
  | predecessor => "pred"

def method : Operation → Builtin
  | add => .numeric .add
  | subtract => .numeric .subtract
  | multiply => .numeric .multiply
  | power => .numeric .power
  | shiftLeft => .integer .shiftLeft
  | shiftRight => .integer .shiftRight
  | negate => .numeric .negate
  | absolute => .numeric .absolute
  | successor => .integer .successor
  | predecessor => .integer .predecessor

/-- The arguments of a call, where `y` is the second operand of those operations that have one. -/
def args (y : Int64) : Operation → List Value
  | add | subtract | multiply | power | shiftLeft | shiftRight => [.int y]
  | negate | absolute | successor | predecessor => []

/-- The result among all integers. A shift multiplies by a power of two and rounds down. -/
def exact (x y : Int) : Operation → Int
  | add => x + y
  | subtract => x - y
  | multiply => x * y
  | power => x ^ y.toNat
  | shiftLeft => Integer.shifted x y
  | shiftRight => Integer.shifted x (-y)
  | negate => -x
  | absolute => |x|
  | successor => x + 1
  | predecessor => x - 1

end Operation

end Arithmetic

open Arithmetic

/-- The operations of integers are exact where the result is an integer of sixty-four bits, and
overflow where it is none. They are the methods that integers have under the names of the
operations when a session starts. -/
theorem integer_operations_exact (interp : Interp) (n : Nat) (w : World) (block : Option Callable)
    (op : Operation) (x y : Int64) (hy : op = .power → 0 ≤ y.toInt) :
    (op.method.run interp n ⟨.int x, op.args y, block⟩).GivesExactly
        (op.exact x.toInt y.toInt) w ∧
      Core.heap.methodOf (.int x) op.name = some (.builtin op.method) ∧
      Fault.overflow.kind = .rangeError := by
  refine ⟨givesExactly_of_eq ?_, by cases op <;> rfl, rfl⟩
  cases op with
  | add | subtract | multiply | negate | successor | predecessor => rfl
  | absolute => exact congrArg (fun z => exactly (int64? z) w) (Int.natCast_natAbs x.toInt)
  | power =>
    have hnonneg : ¬y.toInt < 0 := Int.not_lt.2 (hy rfl)
    have hrun : powerInts x y w = exactly (Integer.power x y.toInt.toNat) w := by
      rw [powerInts, if_neg hnonneg]
    exact hrun.trans (congrArg (exactly · w) (Integer.power_eq x _))
  | shiftLeft => exact congrArg (exactly · w) (Integer.shiftLeft_eq x y)
  | shiftRight => exact congrArg (exactly · w) (Integer.shiftRight_eq x y)

/-- The least integer is a power of minus two, and its opposite, one shifted by as many places, is
none of the integers. -/
theorem integer_operations_exact_least :
    let w : World := { heap := Core.heap }
    0 ≤ (63 : Int64).toInt ∧
      Builtin.run Session.evaluator 0 (.numeric .power) ⟨.int (-2), [.int 63], none⟩ w =
        .ok (.int Int64.minValue) w ∧
      Builtin.run Session.evaluator 0 (.integer .shiftLeft) ⟨.int 1, [.int 63], none⟩ w =
        .error (.failed { fault := .overflow }) w := by
  intro w
  have hnonneg : 0 ≤ (63 : Int64).toInt := by decide
  obtain ⟨hpower, -⟩ :=
    integer_operations_exact Session.evaluator 0 w none .power (-2) 63 fun _ => hnonneg
  obtain ⟨hshift, -⟩ := integer_operations_exact Session.evaluator 0 w none .shiftLeft 1 63 nofun
  have hexact : Operation.exact (1 : Int64).toInt (63 : Int64).toInt .shiftLeft = 2 ^ 63 :=
    Integer.shifted_natCast 1 63
  refine ⟨hnonneg, hpower.ok Int64.minValue rfl, hshift.overflow fun r hr => ?_⟩
  have hlt := r.toInt_lt
  omega

/-! ## Division -/

theorem Run.exactly_ne_divisionByZero (z : Option Int64) (w : World) :
    exactly z w ≠ fail .divisionByZero w := by
  cases z <;> nofun

/-- Dividing by zero fails. Otherwise the quotient and the remainder are those of the division
rounded down, where the quotient of the least integer by minus one overflows and no other does. In
between no step leaves the integers of sixty-four bits. -/
theorem division_rounds_down (w : World) (block : Option Callable) (x y : Int64) :
    let quotient := Arithmetic.run .divide ⟨.int x, [.int y], block⟩
    let remainder := Arithmetic.run .modulo ⟨.int x, [.int y], block⟩
    (quotient w = fail .divisionByZero w ↔ y = 0) ∧
      (remainder w = fail .divisionByZero w ↔ y = 0) ∧
      (y ≠ 0 → ∃ (q : Int) (r : Int64), x.toInt = q * y.toInt + r.toInt ∧
        r.toInt.natAbs < y.toInt.natAbs ∧ (r.toInt = 0 ∨ r.toInt.sign = y.toInt.sign) ∧
        remainder w = .ok (.int r) w ∧ quotient.GivesExactly q w ∧
        ((∀ q' : Int64, q'.toInt ≠ q) ↔ x = Int64.minValue ∧ y = -1)) ∧
      Integer.StepsFit x y := by
  intro quotient remainder
  have hquotient : quotient w = divideInts x y w := rfl
  have hremainder : remainder w = moduloInts x y w := rfl
  unfold divideInts at hquotient
  unfold moduloInts at hremainder
  by_cases hy : y = 0
  · have hzero : y.toInt = 0 := Integer.toInt_eq_zero_iff.2 hy
    rw [if_pos hzero] at hquotient hremainder
    exact ⟨iff_of_true hquotient hy, iff_of_true hremainder hy, fun h => absurd hy h,
      Integer.stepsFit x y⟩
  · have hne : y.toInt ≠ 0 := mt Integer.toInt_eq_zero_iff.1 hy
    have hbounds := Integer.fmod_bounds (a := x.toInt) hne
    rw [if_neg hne] at hquotient hremainder
    refine ⟨iff_of_false ?_ hy, iff_of_false ?_ hy, fun _ => ⟨x.toInt.fdiv y.toInt,
      Integer.floorModulo x y, ?_, ?_, ?_, hremainder, givesExactly_of_eq ?_, ?_⟩,
      Integer.stepsFit x y⟩
    · rw [hquotient]
      exact exactly_ne_divisionByZero _ w
    · rw [hremainder]
      nofun
    · rw [Integer.toInt_floorModulo, Int.fdiv_mul_add_fmod]
    · rw [Integer.toInt_floorModulo]
      exact hbounds.1
    · rw [Integer.toInt_floorModulo]
      exact hbounds.2
    · rw [hquotient, Integer.floorDivide_eq hy]
    · rw [← int64?_eq_none_iff_ne, ← Integer.floorDivide_eq hy, Integer.floorDivide_eq_none_iff]

/-- Minus seven is minus four times two and one. -/
theorem division_rounds_down_minus_seven :
    let w : World := { heap := Core.heap }
    (2 : Int64) ≠ 0 ∧
      Arithmetic.run .divide ⟨.int (-7), [.int 2], none⟩ w = .ok (.int (-4)) w ∧
      Arithmetic.run .modulo ⟨.int (-7), [.int 2], none⟩ w = .ok (.int 1) w := by
  intro w
  have htwo : (2 : Int64) ≠ 0 := by decide
  obtain ⟨-, -, hdivides, -⟩ := division_rounds_down w none (-7) 2
  obtain ⟨q, r, hsum, hlt, hsign, hremainder, hquotient, -⟩ := hdivides htwo
  have hvalues : q = -4 ∧ r.toInt = 1 := by
    change -7 = q * 2 + r.toInt at hsum
    change r.toInt.natAbs < 2 at hlt
    rcases hsign with hzero | hsign
    · omega
    · have hpos := Int.sign_eq_one_iff_pos.1 hsign
      omega
  obtain rfl : r = 1 := Int64.toInt_inj.1 hvalues.2
  exact ⟨htwo, hquotient.ok (-4) hvalues.1.symm, hremainder⟩

end Spinel
