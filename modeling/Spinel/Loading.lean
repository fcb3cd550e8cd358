import Spinel.Dispatch
import Spinel.Grammar.Program

/-!
# Running sources

Reading a source and running it at the top level, and loading other sources once each.
-/

namespace Spinel

/-- The report of a failure that leaves a source. Lines are quoted only if it arose there. -/
def Failure.leaving (f : Failure) (label code : String) : Failure :=
  let f := f.inFile label
  f.render (if f.file = some label then some code else none)

/-- A number for a source that is about to be read. -/
def Run.newSource (label : String) : Run SourceId := fun w =>
  .ok ⟨label, w.sources⟩ { w with sources := w.sources + 1 }

/-- Ask the resolver for the text of a path. -/
def Run.resolve (path : String) : Run String := fun w =>
  let asking := { w with asked := path :: w.asked }
  match w.host.resolve w.asked path with
  | .ok code => .ok code asking
  | .error f => .error (.failed f) asking

theorem Run.resolve_cases (path : String) (w : World) :
    (∃ code, w.host.resolve w.asked path = .ok code ∧
      Run.resolve path w = .ok code { w with asked := path :: w.asked }) ∨
    ∃ f, w.host.resolve w.asked path = .error f ∧
      Run.resolve path w = .error (.failed f) { w with asked := path :: w.asked } := by
  unfold Run.resolve
  cases w.host.resolve w.asked path with
  | ok code => exact .inl ⟨code, rfl, rfl⟩
  | error f => exact .inr ⟨f, rfl, rfl⟩

namespace Interp

/-- Read a program off a stream and run it at the top level. -/
def runStream (interp : Interp) (s : Stream) (label : String) : Run Value := do
  let source ← Run.newSource label
  match Grammar.parse source s with
  | (.program nodes, code) =>
    (interp.body Core.root .nil nodes).mapFailure (·.leaving label code)
  | (.syntaxError e, code) => throw (.failed ((Failure.ofSyntaxError e).leaving label code))
  | (.exhausted, _) => Run.outOfFuel

/-- Run a source that is given as a text. -/
def runText (interp : Interp) (code label : String) : Run Value :=
  interp.runStream (.ofText code) label

/-- Load a source by its path, unless that was done, and say whether it was loaded now. -/
def require (interp : Interp) (path : String) : Run Bool := do
  if (← get).loaded.contains path then return false
  let code ← Run.resolve path
  modify fun w => { w with loaded := path :: w.loaded }
  let _ ← interp.runText code path
  return true

end Interp

end Spinel
