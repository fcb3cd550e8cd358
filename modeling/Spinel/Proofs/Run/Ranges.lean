import Mathlib.Data.List.DropRight
import Mathlib.Data.List.Range
import Spinel.Proofs.Run.Receivers

/-!
# The first and the last integers of a range

A range holds the integers between its bounds, both included (`Integer.ascending`). The first and
the last few of them are those at the two ends of that list, and the size of a range is their
number, if that is an integer of sixty-four bits. Where the last few start is worked out in steps
that stay among these integers. This goes wrong in two places, and only there: none of the last
integers is asked for and the range goes up to the largest integer there is, or all of them are
and it begins at the least (`range_ends_iff`).
-/

namespace Spinel

namespace Integer

/-! ## Integers between bounds -/

/-- The integers between two bounds, both included, in ascending order. -/
def ascending (a b : Int) : List Int := (List.range (b + 1 - a).toNat).map fun i : Nat => a + i

variable {a b : Int}

theorem pairwise_ascending : (ascending a b).Pairwise (· < ·) :=
  List.pairwise_lt_range.map _ fun i j hij => by omega

theorem mem_ascending {x : Int} : x ∈ ascending a b ↔ a ≤ x ∧ x ≤ b := by
  unfold ascending
  rw [List.mem_map]
  constructor
  · rintro ⟨i, hi, rfl⟩
    have := List.mem_range.1 hi
    omega
  · intro hx
    exact ⟨(x - a).toNat, List.mem_range.2 (by omega), by omega⟩

theorem length_ascending : (ascending a b).length = (b + 1 - a).toNat := by
  rw [ascending, List.length_map, List.length_range]

theorem take_ascending (k : Nat) : (ascending a b).take k = ascending a (min b (a + k - 1)) := by
  rw [ascending, ascending, ← List.map_take, List.take_range]
  congr 2
  omega

theorem drop_ascending (k : Nat) : (ascending a b).drop k = ascending (a + k) b := by
  rw [ascending, ascending]
  apply List.ext_getElem
  · rw [List.length_drop, List.length_map, List.length_map, List.length_range, List.length_range]
    omega
  · intro i hi hi'
    rw [List.getElem_drop, List.getElem_map, List.getElem_map, List.getElem_range,
      List.getElem_range]
    omega

theorem ascending_of_lt (h : b < a) : ascending a b = [] :=
  List.length_eq_zero_iff.1 (by rw [length_ascending]; omega)

theorem upFrom_eq {low : Int64} {count : Nat} (h : (b + 1 - low.toInt).toNat = count) :
    upFrom low count = (ascending low.toInt b).map .ofInt := by
  rw [ascending, h, List.map_map]
  rfl

end Integer

open Run

/-- New arrays are the same only if their items are. -/
theorem Run.newList_inj {w : World} {xs ys : List Value} (h : newList xs w = newList ys w) :
    xs = ys := by
  have hitems : ∀ zs : List Value,
      (w.heap.newList zs.toArray).2.list ⟨w.heap.lists.size⟩ = zs.toArray :=
    fun zs => Store.get_push_size w.heap.lists zs.toArray
  injection h with _ hworld
  have hheap : (w.heap.newList xs.toArray).2 = (w.heap.newList ys.toArray).2 :=
    congrArg World.heap hworld
  have harray := congrArg (Heap.list · ⟨w.heap.lists.size⟩) hheap
  simp only [hitems] at harray
  exact List.toArray_inj harray

namespace Ranges

/-- Integers as values. -/
def ints (xs : List Int) : List Value := xs.map fun x => .int (.ofInt x)

theorem length_ints (xs : List Int) : (ints xs).length = xs.length := List.length_map _

theorem newInts_eq {low : Int64} {count : Nat} {b : Int} (h : (b + 1 - low.toInt).toNat = count) :
    newInts low count = newList (ints (Integer.ascending low.toInt b)) := by
  unfold newInts ints
  rw [Integer.upFrom_eq h, List.map_map]
  rfl

theorem newInts_rangeSize (low high : Int64) :
    newInts low (Integer.rangeSize low high) =
      newList (ints (Integer.ascending low.toInt high.toInt)) :=
  newInts_eq (congrArg Int.toNat (by omega))

/-! ## Where the last integers start -/

variable {low high : Int64} {count : Nat}

/-- The start of the last `count` integers is none of the integers of sixty-four bits, or one has to
go below the least of them to get there. -/
def LeavesInt64 (low high : Int64) (count : Nat) : Prop :=
  count = 0 ∧ high = Int64.maxValue ∨
    low = Int64.minValue ∧ Integer.rangeSize low high ≤ count

instance : Decidable (LeavesInt64 low high count) := inferInstanceAs (Decidable (_ ∨ _))

theorem toInt_lastStart (low high : Int64) (count : Nat) :
    (lastStart low high count).toInt = max low.toInt
      (min (max (high.toInt - count) Int64.minValue.toInt + 1) Int64.maxValue.toInt) := by
  have hmin := Int64.toInt_minValue
  have hmax := Int64.toInt_maxValue
  have hhigh := high.toInt_lt
  unfold lastStart
  simp only [toInt_saturated]
  split
  · omega
  · rw [toInt_saturated]
    omega

/-- The integers from the start on are the last ones, unless the steps to it lead astray. -/
theorem ints_lastStart_iff :
    ints (Integer.ascending (lastStart low high count).toInt high.toInt) =
        ints ((Integer.ascending low.toInt high.toInt).rtake count) ↔
      ¬LeavesInt64 low high count := by
  have hmin := Int64.toInt_minValue
  have hmax := Int64.toInt_maxValue
  have hlow := low.le_toInt
  have hlow' := low.toInt_lt
  have hhigh := high.le_toInt
  have hhigh' := high.toInt_lt
  have hstart := toInt_lastStart low high count
  unfold LeavesInt64 Integer.rangeSize List.rtake
  rw [← Int64.toInt_inj, ← Int64.toInt_inj, Integer.drop_ascending, Integer.length_ascending]
  generalize (lastStart low high count).toInt = start at hstart
  constructor
  · intro heq
    -- where the steps lead astray, there is one integer too many or one too few
    have hlength := congrArg List.length heq
    rw [length_ints, length_ints, Integer.length_ascending, Integer.length_ascending] at hlength
    omega
  · intro hkeeps
    by_cases hempty : high.toInt < low.toInt
    · rw [Integer.ascending_of_lt (by omega), Integer.ascending_of_lt (by omega)]
    · congr 2
      omega

/-! ## The methods -/

variable {w : World} {receiver : Value} {n : Int64}

theorem needCount_int (hn : 0 ≤ n.toInt) : Lists.needCount (.int n) w = .ok n.toInt.toNat w := by
  refine (bind_of_ok (needs_of_some rfl) _).trans ?_
  rw [if_neg (by omega)]
  rfl

theorem first_eq (hn : 0 ≤ n.toInt) :
    first low high [.int n] w =
      newList (ints ((Integer.ascending low.toInt high.toInt).take n.toInt.toNat)) w := by
  refine (bind_of_ok (needCount_int hn) _).trans ?_
  rw [newInts_eq (b := min high.toInt (low.toInt + n.toInt.toNat - 1)), Integer.take_ascending]
  unfold Integer.rangeSize
  omega

theorem last_eq (hn : 0 ≤ n.toInt) :
    last low high [.int n] w =
      newList (ints (Integer.ascending (lastStart low high n.toInt.toNat).toInt high.toInt)) w := by
  refine (bind_of_ok (needCount_int hn) _).trans ?_
  rw [newInts_rangeSize]

theorem exactly_int64? (x : Nat) :
    exactly (int64? x) w =
      if x ≤ Int64.maxValue.toInt then .ok (.int (.ofInt x)) w
      else .error (.failed { fault := .overflow }) w := by
  have hmin := Int64.toInt_minValue
  by_cases h : (x : Int) ≤ Int64.maxValue.toInt
  · have hfits : int64? x = some (.ofInt x) := if_pos (by unfold fitsInt64; grind)
    rw [if_pos h, hfits]
    rfl
  · have hnone : int64? x = none := if_neg (by unfold fitsInt64; grind)
    rw [if_neg h, hnone]
    rfl

end Ranges

/-- The first integers of a range are those its list of integers begins with, and its size is their
number, or too large to give. The last integers are those the list ends with, unless the steps to
them lead astray. -/
theorem range_ends_iff (interp : Interp) (w : World) (receiver : Value) (block : Option Callable)
    (low high : Int64) (h : w.heap.range? receiver = some (low, high)) :
    let xs := Integer.ascending low.toInt high.toInt
    (xs.Pairwise (· < ·) ∧ ∀ x, x ∈ xs ↔ low.toInt ≤ x ∧ x ≤ high.toInt) ∧
    (∀ n : Int64, 0 ≤ n.toInt →
      Ranges.run interp .first ⟨receiver, [.int n], block⟩ w =
        newList (Ranges.ints (xs.take n.toInt.toNat)) w) ∧
    (∀ n : Int64, 0 ≤ n.toInt →
      (Ranges.run interp .last ⟨receiver, [.int n], block⟩ w =
          newList (Ranges.ints (xs.rtake n.toInt.toNat)) w ↔
        ¬Ranges.LeavesInt64 low high n.toInt.toNat)) ∧
    Ranges.run interp .size ⟨receiver, [], block⟩ w =
      if xs.length ≤ Int64.maxValue.toInt then .ok (.int (.ofInt xs.length)) w
      else .error (.failed { fault := .overflow }) w := by
  have hrange : needRange receiver w = .ok (low, high) w := needs_of_some h
  refine ⟨⟨Integer.pairwise_ascending, fun _ => Integer.mem_ascending⟩, fun n hn => ?_,
    fun n hn => ?_, ?_⟩
  · exact (bind_of_ok hrange _).trans (Ranges.first_eq hn)
  · have hlast : Ranges.run interp .last ⟨receiver, [.int n], block⟩ w = _ :=
      (bind_of_ok hrange _).trans (Ranges.last_eq hn)
    rw [← Ranges.ints_lastStart_iff]
    exact ⟨fun heq => newList_inj (hlast.symm.trans heq), fun heq => hlast.trans (heq ▸ rfl)⟩
  · have hsize : (high.toInt + 1 - low.toInt).toNat = Integer.rangeSize low high :=
      congrArg Int.toNat (by omega)
    rw [Integer.length_ascending, hsize, ← Ranges.exactly_int64?]
    exact bind_of_ok hrange _

/-- The ends of the integers from eight to twelve. -/
theorem range_ends_eight_to_twelve :
    let w : World := { heap := Core.heap }
    Ranges.run Session.evaluator .first ⟨.range 8 12, [.int 2], none⟩ w =
        newList [.int 8, .int 9] w ∧
      Ranges.run Session.evaluator .last ⟨.range 8 12, [.int 2], none⟩ w =
        newList [.int 11, .int 12] w := by
  intro w
  obtain ⟨-, hfirst, hlast, -⟩ := range_ends_iff Session.evaluator w (.range 8 12) none 8 12 rfl
  have hints : Integer.ascending (8 : Int64).toInt (12 : Int64).toInt = [8, 9, 10, 11, 12] := rfl
  refine ⟨(hfirst 2 (by decide)).trans ?_, ((hlast 2 (by decide)).2 (by decide)).trans ?_⟩ <;>
    rw [hints] <;> rfl

/-- The last of no integers at the top, and the last two of two at the bottom, are one integer. -/
theorem last_at_bounds_is_one :
    let h := (Session.afterAll (Session.start)
      [.text "$x = (1..9223372036854775807).last(0)" "main",
        .text "$y = (-9223372036854775808..-9223372036854775807).last(2)" "main"]).heap
    ((h.findLocal Core.root "$x").map h.key == some (.array [.int 9223372036854775807])) ∧
      ((h.findLocal Core.root "$y").map h.key == some (.array [.int (-9223372036854775807)])) := by
  decide +kernel

end Spinel
