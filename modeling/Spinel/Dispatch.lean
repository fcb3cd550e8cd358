import Spinel.World

/-!
# Calling methods

The two things that the evaluator does on behalf of all others, evaluating a node and calling a
callable, and what is built from them: sending a message to a value, its text, comparisons.
-/

namespace Spinel

/-- A piece of work for the evaluator. -/
inductive Task where
  /-- Evaluate a node in a scope. -/
  | eval (scope : ScopeRef) (node : Node)
  /-- Call a callable. -/
  | invoke (c : Callable) (receiver : Value) (args : List Value) (block : Option Callable)

/-- How the evaluator is reached. -/
abbrev Interp := Task → Run Value

/-- A call of a method. -/
structure Call where
  receiver : Value
  args : List Value
  block : Option Callable

namespace Interp

/-- The value has no such method. -/
def noMethod {α : Type} (receiver : Value) (name : String) : Run α := do
  Run.fail (.undefinedMethod name (← Run.reading fun h => h.fullName (h.classOf receiver)))

/-- What a value does with messages that it has no method for. Classes do nothing. -/
def missingMethod (h : Heap) : Value → Option Callable
  | .klass _ => none
  | v => h.methodOf v "method_missing"

/-- Call the method of a name on a receiver. -/
def send (interp : Interp) (receiver : Value) (name : String) (args : List Value)
    (block : Option Callable) : Run Value := do
  match ← Run.reading (·.methodOf receiver name) with
  | some c => interp (.invoke c receiver args block)
  | none =>
    match ← Run.reading (missingMethod · receiver) with
    | some c => interp (.invoke c receiver (.symbol name :: args) block)
    | none => noMethod receiver name

/-- Call the method of a name on `self`, or else on the top-level object, if one of them has it. -/
def sendImplicit (interp : Interp) (scope : ScopeRef) (name : String) (args : List Value)
    (block : Option Callable) : Run (Option Value) := do
  let receiver ← Run.reading fun h => (h.scope scope).receiver
  match ← Run.reading (·.methodOf receiver name) with
  | some c => return some (← interp (.invoke c receiver args block))
  | none =>
    match ← Run.reading (·.methodOf (.object Core.main) name) with
    | some c => return some (← interp (.invoke c (.object Core.main) args block))
    | none => return none

/-- Call a block on a value. -/
def yieldTo (interp : Interp) (block : Callable) (receiver : Value) (args : List Value) :
    Run Value :=
  interp (.invoke block receiver args none)

/-- The string that a method gave, or a plain text of the value if it gave something else. -/
def textOr (v answer : Value) : Run String :=
  match answer with
  | .str r => Run.reading (·.text r)
  | _ => Run.readingSome (·.plainText v)

/-- The text of a value by its method `to_s`. -/
def text (interp : Interp) (v : Value) : Run String := do
  match v with
  | .str r => Run.reading (·.text r)
  | v => textOr v (← interp.send v "to_s" [] none)

/-- The text of a value by its method `inspect`. -/
def inspect (interp : Interp) (v : Value) : Run String := do
  textOr v (← interp.send v "inspect" [] none)

/-- The texts of values by their methods `inspect`. -/
def inspectAll (interp : Interp) : List Value → Run (List String)
  | [] => pure []
  | v :: rest => do
    let s ← interp.inspect v
    let ss ← interp.inspectAll rest
    pure (s :: ss)

/-- Equality by the method `==`. -/
def equals (interp : Interp) (v w : Value) : Run Bool := do
  return (← interp.send v "==" [w] none).truthy

/-- Order by the method `<=>`. -/
def order (interp : Interp) (v w : Value) : Run Ordering := do
  match ← interp.send v "<=>" [w] none with
  | .int c => return compare c.toInt 0
  | _ => Run.fail (.invalidArgument "comparison failed")

/-- Evaluate statements in order. The value is that of the last, or `last` if there are none. -/
def body (interp : Interp) (scope : ScopeRef) : (last : Value) → List Node → Run Value
  | last, [] => pure last
  | _, node :: rest => do
    let v ← interp (.eval scope node)
    interp.body scope v rest

end Interp

end Spinel
