import Spinel.Proofs.Number.Bounded
import Spinel.Proofs.Run.Ranges

/-!
# Ranges without their upper bound

A range that excludes its upper bound is made once and for all: it goes up to the integer below the
bound, and nothing that is done with it later looks at the bound again. Below the least integer
there is none, so the least integer stays its own bound. This is seen only where the range begins
there as well (`exclusive_ranges_iff`).
-/

namespace Spinel

open Run

namespace Ranges

variable {low high x : Int64}

/-- There is no integer below the upper bound, and the lower bound is not beyond it. -/
def NothingBelow (low high : Int64) : Prop := low = Int64.minValue ∧ high = Int64.minValue

instance : Decidable (NothingBelow low high) := inferInstanceAs (Decidable (_ ∧ _))

/-- The last integer of a range that excludes a bound. -/
theorem toInt_saturated_sub_one (high : Int64) :
    (saturated (high.toInt - 1)).toInt = max (high.toInt - 1) Int64.minValue.toInt := by
  have hmax := Int64.toInt_maxValue
  have hlt := high.toInt_lt
  rw [toInt_saturated]
  omega

theorem nothingBelow_iff :
    NothingBelow low high ↔ low.toInt = -2 ^ 63 ∧ high.toInt = -2 ^ 63 := by
  rw [NothingBelow, ← Int64.toInt_inj, ← Int64.toInt_inj, Int64.toInt_minValue]

theorem holds_iff :
    holds low (saturated (high.toInt - 1)) (.int x) =
        decide (low.toInt ≤ x.toInt ∧ x.toInt < high.toInt) ↔
      ¬(NothingBelow low high ∧ x = Int64.minValue) := by
  have hmin := Int64.toInt_minValue
  have hlow := low.le_toInt
  have hhigh := high.le_toInt
  have hx := x.le_toInt
  rw [nothingBelow_iff, ← Int64.toInt_inj, hmin, holds, toInt_saturated_sub_one, ← Bool.decide_and,
    decide_eq_decide]
  omega

theorem rangeSize_eq_zero_iff (h : high.toInt ≤ low.toInt) :
    Integer.rangeSize low (saturated (high.toInt - 1)) = 0 ↔ ¬NothingBelow low high := by
  have hmin := Int64.toInt_minValue
  have hlow := low.le_toInt
  have hhigh := high.le_toInt
  rw [nothingBelow_iff, Integer.rangeSize, toInt_saturated_sub_one]
  omega

variable {interp : Interp} {block : Option Callable} {w : World}

theorem includes_iff {b : Bool} :
    run interp .includes ⟨.range low high, [.int x], block⟩ w = .ok (.bool b) w ↔
      holds low high (.int x) = b := by
  have hrun : run interp .includes ⟨.range low high, [.int x], block⟩ w =
      .ok (.bool (holds low high (.int x))) w := rfl
  rw [hrun]
  constructor
  · intro h
    cases h
    rfl
  · rintro rfl
    rfl

theorem isEmpty_iff :
    run interp .size ⟨.range low high, [], block⟩ w = .ok (.int 0) w ∧
        run interp .toArray ⟨.range low high, [], block⟩ w = newList [] w ↔
      Integer.rangeSize low high = 0 := by
  have hsize : run interp .size ⟨.range low high, [], block⟩ w =
      exactly (int64? (Integer.rangeSize low high)) w := rfl
  have harray : run interp .toArray ⟨.range low high, [], block⟩ w =
      newInts low (Integer.rangeSize low high) w := rfl
  rw [hsize, harray]
  constructor
  · rintro ⟨h, -⟩
    cases hfits : int64? (Integer.rangeSize low high) with
    | none =>
      rw [hfits] at h
      cases h
    | some r =>
      rw [hfits] at h
      cases h
      exact Int.natCast_eq_zero.1 (int64?_eq_some_iff.1 hfits).symm
  · intro h
    rw [h]
    exact ⟨rfl, rfl⟩

end Ranges

/-! ## Making ranges -/

variable {interp : Interp} {n : Nat} {w : World} {block : Option Callable} {low high : Int64}

/-- The class of ranges makes ranges for ever. -/
theorem Creation.layout?_range (h : Core.heap.Enlarges w.heap) :
    layout? w.heap Core.range = some .range := by
  have hgrows := h.grows Core.range (by decide)
  have hclass : ((w.heap.klass Core.range).isModule || (w.heap.klass Core.range).isSingleton) =
      false := by
    rw [hgrows.isModule, hgrows.isSingleton]
    rfl
  obtain ⟨rest, hrest⟩ := w.heap.exists_ancestors_eq_cons Core.range
  rw [layout?, hclass, hrest]
  rfl

theorem Creation.create_range (h : Core.heap.Enlarges w.heap) :
    Creation.run interp .create ⟨.klass Core.range, [.int low, .int high, .bool true], block⟩ w =
      .ok (.range low (saturated (high.toInt - 1))) w := by
  have hlayout : reading (layout? · Core.range) w = .ok (some .range) w :=
    congrArg (EStateM.Result.ok · w) (layout?_range h)
  have hclass : needClass (.klass Core.range) w = .ok Core.range w := rfl
  refine (bind_of_ok hclass _).trans ?_
  exact bind_of_ok hlayout _

theorem Interp.form_range {scope : ScopeRef} {node lowNode highNode : Node} {w₁ w₂ : World}
    (hform : node.form = .range lowNode highNode true)
    (hlow : interp (.eval scope lowNode) w = .ok (.int low) w₁)
    (hhigh : interp (.eval scope highNode) w₁ = .ok (.int high) w₂) :
    interp.form n scope node w = .ok (.range low (saturated (high.toInt - 1))) w₂ := by
  unfold Interp.form
  rw [hform]
  exact (bind_of_ok hlow _).trans (bind_of_ok hhigh _)

/-- A range that excludes its upper bound is the same range whether it is written down or made by
its class. It includes the integers from the lower bound on that are less than the upper one, and
has none if the upper bound is not beyond the lower one, unless there is nothing below the upper
bound. -/
theorem exclusive_ranges_iff (interp : Interp) (n : Nat) (block : Option Callable)
    (low high : Int64) :
    ∃ range : Value,
      (∀ (scope : ScopeRef) (node lowNode highNode : Node) (w w₁ w₂ : World),
        node.form = .range lowNode highNode true →
        interp (.eval scope lowNode) w = .ok (.int low) w₁ →
        interp (.eval scope highNode) w₁ = .ok (.int high) w₂ →
        interp.form n scope node w = .ok range w₂) ∧
      (∀ w : World, Core.heap.Enlarges w.heap →
        Creation.run interp .create
          ⟨.klass Core.range, [.int low, .int high, .bool true], block⟩ w = .ok range w) ∧
      (∀ (x : Int64) (w : World),
        Ranges.run interp .includes ⟨range, [.int x], block⟩ w =
            .ok (.bool (decide (low.toInt ≤ x.toInt ∧ x.toInt < high.toInt))) w ↔
          ¬(Ranges.NothingBelow low high ∧ x = Int64.minValue)) ∧
      (high.toInt ≤ low.toInt → ∀ w : World,
        (Ranges.run interp .size ⟨range, [], block⟩ w = .ok (.int 0) w ∧
            Ranges.run interp .toArray ⟨range, [], block⟩ w = newList [] w ↔
          ¬Ranges.NothingBelow low high)) := by
  refine ⟨.range low (saturated (high.toInt - 1)),
    fun scope node lowNode highNode w w₁ w₂ hform hlow hhigh => Interp.form_range hform hlow hhigh,
    fun w hw => Creation.create_range hw, fun x w => ?_, fun hle w => ?_⟩
  · rw [Ranges.includes_iff, Ranges.holds_iff]
  · rw [Ranges.isEmpty_iff, Ranges.rangeSize_eq_zero_iff hle]

/-- The integers from two on that are less than five, written down and made, and those that are less
than two. -/
theorem exclusive_ranges_from_two :
    let w : World := { heap := Core.heap }
    let literal (x : Int64) : Node := ⟨default, .integer x⟩
    (∃ range : Value,
      (interpreter 1).form 0 Core.root ⟨default, .range (literal 2) (literal 5) true⟩ w =
          .ok range w ∧
        Creation.run (interpreter 1) .create
          ⟨.klass Core.range, [.int 2, .int 5, .bool true], none⟩ w = .ok range w ∧
        Ranges.run (interpreter 1) .includes ⟨range, [.int 4], none⟩ w = .ok (.bool true) w ∧
        Ranges.run (interpreter 1) .includes ⟨range, [.int 5], none⟩ w = .ok (.bool false) w) ∧
      ∃ range : Value,
        Creation.run (interpreter 1) .create
          ⟨.klass Core.range, [.int 2, .int 2, .bool true], none⟩ w = .ok range w ∧
        Ranges.run (interpreter 1) .size ⟨range, [], none⟩ w = .ok (.int 0) w ∧
        Ranges.run (interpreter 1) .toArray ⟨range, [], none⟩ w = newList [] w := by
  intro w literal
  have hcore : Core.heap.Enlarges w.heap := .refl _
  obtain ⟨range, hwritten, hmade, hincludes, -⟩ := exclusive_ranges_iff (interpreter 1) 0 none 2 5
  obtain ⟨empty, -, hmadeEmpty, -, hnone⟩ := exclusive_ranges_iff (interpreter 1) 0 none 2 2
  exact ⟨⟨range, hwritten Core.root _ (literal 2) (literal 5) w w w rfl rfl rfl, hmade w hcore,
    (hincludes 4 w).2 (by decide), (hincludes 5 w).2 (by decide)⟩,
    empty, hmadeEmpty w hcore, (hnone (by decide) w).2 (by decide)⟩

/-- Nothing is less than the least integer, but the range from there on that excludes it has it. -/
theorem excluded_least_is_included :
    let h := (Session.afterAll (Session.start)
      [.text ("$x = (-9223372036854775808...-9223372036854775808).to_a\n" ++
        "$y = Range.new(-9223372036854775808, -9223372036854775808, true).size") "main"]).heap
    ((h.findLocal Core.root "$x").map h.key == some (.array [.int (-9223372036854775808)])) ∧
      ((h.findLocal Core.root "$y").map h.key == some (.int 1)) := by
  decide +kernel

end Spinel
