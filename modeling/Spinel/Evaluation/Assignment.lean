import Spinel.Method.Object

/-!
# Assignment

The value is evaluated first, then what the target is made of. Writing to an index or an attribute
calls the method for it.
-/

namespace Spinel.Interp

/-- Evaluate nodes in order. -/
def evalAll (interp : Interp) (scope : ScopeRef) : List Node → Run (List Value)
  | [] => pure []
  | node :: rest => do
    let v ← interp (.eval scope node)
    let vs ← interp.evalAll scope rest
    pure (v :: vs)

/-- Store a value where a target says. -/
def store (interp : Interp) (scope : ScopeRef) (target : Node) (v : Value) : Run Unit := do
  match target.form with
  | .localVar name => Run.modifyHeap (·.assignLocal scope name v)
  | .globalVar name => Run.modifyHeap (·.defineLocal Core.root name v)
  | .instanceVar name =>
    let receiver ← Run.reading fun h => (h.scope scope).receiver
    let _ ← (Universal.assign receiver name v).tagged target.span .assigning
  | .classVar name =>
    Run.modifyHeap fun h =>
      let owner := h.classVariableOwner (h.scope scope).receiver
      h.setClassVariable (h.classVariableHolder owner name) name v
  | .constant name =>
    Run.modifyHeap fun h =>
      match (h.scope scope).module with
      | some m => h.setConstant m name v
      | none => h.defineLocal scope name v
  | .scoped outer name =>
    let outer ← interp (.eval scope outer)
    let c ← (Run.needClass outer).tagged target.span .assigning
    Run.modifyHeap (·.setConstant c name v)
  | .index receiver args =>
    let receiver ← interp (.eval scope receiver)
    let args ← interp.evalAll scope args
    let _ ← (interp.send receiver "[]=" (args ++ [v]) none).tagged target.span .calling
  | .call (some receiver) name [] .none =>
    let receiver ← interp (.eval scope receiver)
    let _ ← (interp.send receiver (name ++ "=") [v] none).tagged target.span .calling
  | _ =>
    (Run.fail (.notImplemented "assignment to this target")).tagged target.span .assigning

def assign (interp : Interp) (scope : ScopeRef) (target value : Node) : Run Value := do
  let v ← interp (.eval scope value)
  interp.store scope target v
  return v

end Spinel.Interp
