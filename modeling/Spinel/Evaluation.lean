import Spinel.Evaluation.Expression
import Spinel.Evaluation.Invocation

/-!
# The evaluator

Evaluation and invocation tied together, with a bound on how deep they call one another.
-/

namespace Spinel

/-- One step from an evaluator that may still be used to depth `n`. A failure that no inner node
claimed arose at this one. -/
def step (n : Nat) (interp : Interp) : Task → Run Value
  | .eval scope node =>
    (interp.form n scope node).mapFailure (·.tagFirst node.span .evaluating)
  | .invoke c receiver args block => c.run interp n ⟨receiver, args, block⟩

/-- The evaluator, usable to the given depth. -/
def interpreter : Nat → Interp
  | 0, _ => Run.outOfFuel
  | n + 1, task => step n (interpreter n) task

end Spinel
