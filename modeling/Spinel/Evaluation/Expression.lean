import Spinel.Evaluation.Assignment
import Spinel.Evaluation.Definition
import Spinel.Method.Class
import Spinel.Method.Module

/-!
# Evaluation of nodes

What each form of node does. Every operator is a method call, so built-in methods and those of
programs are reached in the same way.
-/

namespace Spinel.Interp

/-! ## Literals -/

/-- Add pairs to a table as they are evaluated. -/
def hashEntries (interp : Interp) (scope : ScopeRef) (t : Table) : List (Node × Node) → Run Table
  | [] => pure t
  | (key, value) :: rest => do
    let key ← interp (.eval scope key)
    let value ← interp (.eval scope value)
    let t ← Run.alloc (·.insertEntry t key value)
    interp.hashEntries scope t rest

/-! ## Names -/

/-- A local variable, or else a method without arguments. -/
def localOrCall (interp : Interp) (scope : ScopeRef) (span : Span) (name : String) : Run Value := do
  match ← Run.reading (·.findLocal scope name) with
  | some v => return v
  | none =>
    match ← (interp.sendImplicit scope name [] none).tagged span .calling with
    | some v => return v
    | none => (Run.fail (.undefinedName name)).tagged span .lookingUp

/-- A constant of a class or module that is evaluated first. -/
def scopedConstant (interp : Interp) (scope : ScopeRef) (span : Span) (outer : Node)
    (name : String) : Run Value := do
  let outer ← interp (.eval scope outer)
  (Reflection.constantOf outer name).tagged span .lookingUp

/-! ## Calls -/

/-- What a call hands on as its block. A symbol becomes a proc that calls the method it names. -/
def blockArgument (interp : Interp) (scope : ScopeRef) : BlockArg → Run (Option Callable)
  | .none => return none
  | .literal b => return some (.block b scope)
  | .value node => do
    match ← interp (.eval scope node) with
    | .nil => return none
    | .proc c => return some c
    | .symbol name => return some (← Run.newNative (.symbolCall name))
    | v => (Run.fail (.notAProc v.shape)).tagged node.span .evaluating

/-- A call of a method, on `self` or the top-level object if no receiver is written. -/
def call (interp : Interp) (scope : ScopeRef) (span : Span) (receiver : Option Node) (name : String)
    (args : List Node) (block : BlockArg) : Run Value := do
  match receiver with
  | some receiver =>
    let receiver ← interp (.eval scope receiver)
    let args ← interp.evalAll scope args
    let block ← interp.blockArgument scope block
    (interp.send receiver name args block).tagged span .calling
  | none =>
    let args ← interp.evalAll scope args
    let block ← interp.blockArgument scope block
    implicit args block |>.tagged span .calling
where
  implicit (args : List Value) (block : Option Callable) : Run Value := do
    match ← interp.sendImplicit scope name args block with
    | some v => return v
    | none => noMethod (← Run.reading fun h => (h.scope scope).receiver) name

/-- Call the block of the running method. -/
def yieldArgs (interp : Interp) (scope : ScopeRef) (span : Span) (args : List Node) :
    Run Value := do
  let args ← interp.evalAll scope args
  let here ← Run.reading (·.scope scope)
  (do interp.yieldTo (← Run.needBlock here.block) here.receiver args : Run Value).tagged span
    .yielding

/-! ## Control -/

/-- Repeat the body as long as the condition is as wanted. -/
def loop (interp : Interp) (scope : ScopeRef) (wanted : Bool) (condition : Node)
    (body : List Node) : (fuel : Nat) → Run Value
  | 0 => Run.outOfFuel
  | n + 1 => do
    if (← interp (.eval scope condition)).truthy == wanted then
      let _ ← interp.body scope .nil body
      interp.loop scope wanted condition body n
    else return .nil

/-! ## All forms -/

/-- Evaluate a node. Loops go round at most `n` times. -/
def form (interp : Interp) (n : Nat) (scope : ScopeRef) (node : Node) : Run Value := do
  match node.form with
  | .nil => return .nil
  | .boolean b => return .bool b
  | .selfRef => Run.reading fun h => (h.scope scope).receiver
  | .integer x => return .int x
  | .float x => return .float x
  | .str s => Run.newText s
  | .symbol s => return .symbol s
  | .array items => Run.newList (← interp.evalAll scope items)
  | .hash pairs =>
    let t ← interp.hashEntries scope .empty pairs
    return .hash (← Run.alloc (·.newTable t))
  | .range low high exclusive =>
    let low ← interp (.eval scope low)
    let high ← interp (.eval scope high)
    Creation.rangeBetween low high exclusive
  | .localVar name => interp.localOrCall scope node.span name
  | .instanceVar name =>
    Run.reading fun h => h.instanceVariable (h.scope scope).receiver name
  | .classVar name =>
    let found ← Run.reading fun h =>
      h.findClassVariable (h.classVariableOwner (h.scope scope).receiver) name
    (Run.ofOption (.uninitializedClassVariable name) found).tagged node.span .lookingUp
  | .globalVar name => return .ofOption (← Run.reading (·.findLocal Core.root name))
  | .constant name =>
    let found ← Run.reading (·.lookupConstant scope name)
    (Run.ofOption (.uninitializedConstant name) found).tagged node.span .lookingUp
  | .scoped outer name => interp.scopedConstant scope node.span outer name
  | .call receiver name args block => interp.call scope node.span receiver name args block
  | .index receiver args =>
    let receiver ← interp (.eval scope receiver)
    let args ← interp.evalAll scope args
    (interp.send receiver "[]" args none).tagged node.span .calling
  | .both left right =>
    let v ← interp (.eval scope left)
    if v.truthy then interp (.eval scope right) else return v
  | .either left right =>
    let v ← interp (.eval scope left)
    if v.truthy then return v else interp (.eval scope right)
  | .assign target value => interp.assign scope target value
  | .branch condition whenTrue whenFalse =>
    if (← interp (.eval scope condition)).truthy then interp.body scope .nil whenTrue
    else interp.body scope .nil whenFalse
  | .loop wanted condition body => interp.loop scope wanted condition body n
  | .forEach iterable block =>
    let v ← interp (.eval scope iterable)
    (interp.send v "each" [] (some (.block block scope))).tagged node.span .calling
  | .define target m => interp.define scope node.span target m
  | .openClass path superclass body =>
    interp.openClass scope node.span path superclass body false
  | .openModule path body => interp.openClass scope node.span path none body true
  | .lambda b => return .proc (.block b scope)
  | .sequence body => interp.body scope .nil body
  | .yieldTo args => interp.yieldArgs scope node.span args
  | .superCall _ => Run.fail (.notImplemented "super")
  | .returnWith _ => Run.fail (.notImplemented "return")
  | .nextWith _ => Run.fail (.notImplemented "next")
  | .breakOut => Run.fail (.notImplemented "break")
  | .redo => Run.fail (.notImplemented "redo")
  | .retry => Run.fail (.notImplemented "retry")

end Spinel.Interp
