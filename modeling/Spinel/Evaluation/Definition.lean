import Spinel.Dispatch

/-!
# Definitions

Defining methods, classes and modules. A class that is there is opened again, and has to have the
superclass that is named, if one is.
-/

namespace Spinel.Interp

/-- The class that a method definition adds to. -/
def definee (interp : Interp) (scope : ScopeRef) (span : Span) (target : Option Node) :
    Run ClassRef := do
  match target with
  | none => return (← Run.reading fun h => (h.scope scope).module).getD Core.object
  | some target =>
    match ← interp (.eval scope target) with
    | .klass c => Run.alloc (·.classSingleton c)
    | .object r => Run.alloc (·.objectSingleton r)
    | v => (Run.fail (.noSingletonMethods v.shape)).tagged span .definingMethod

def define (interp : Interp) (scope : ScopeRef) (span : Span) (target : Option Node) (m : Method) :
    Run Value := do
  let c ← interp.definee scope span target
  Run.modifyHeap (·.setMethod c m.name (.method m scope))
  return .symbol m.name

/-- The class or module in which a path names something, and the name. -/
def location (interp : Interp) (scope : ScopeRef) (path : Node) : Run (ClassRef × String) := do
  match path.form with
  | .constant name =>
    return ((← Run.reading fun h => (h.scope scope).module).getD Core.object, name)
  | .scoped outer name =>
    let v ← interp (.eval scope outer)
    return (← (Run.needClass v).tagged path.span .lookingUp, name)
  | _ => (Run.fail (.notImplemented "class path")).tagged path.span .definingClass

/-- The superclass that is named, if one is. -/
def superclassOf (interp : Interp) (scope : ScopeRef) (node : Option Node) :
    Run (Option ClassRef) := do
  match node with
  | none => return none
  | some node =>
    let v ← interp (.eval scope node)
    return some (← (Run.needClass v).tagged node.span .definingClass)

/-- A new class or module under a name. -/
def newClass (namespace_ : ClassRef) (name : String) (isModule : Bool)
    (superclass : Option ClassRef) : Run ClassRef := do
  let parent := if namespace_ == Core.object then none else some namespace_
  let superclass := if isModule then none else some (superclass.getD Core.object)
  let c ← Run.alloc (·.newClass { name, isModule, superclass, parent })
  Run.modifyHeap (·.setConstant namespace_ name (.klass c))
  return c

/-- The class or module of a name, made if there is none. -/
def opened (span pathSpan : Span) (namespace_ : ClassRef) (name : String) (isModule : Bool)
    (superclass : Option ClassRef) : Run ClassRef := do
  match ← Run.reading fun h => (h.klass namespace_).constants.get? name with
  | some (.klass c) =>
    let actual ← Run.reading fun h => (h.klass c).superclass
    if superclass.isSome && superclass != actual then
      (Run.fail (.superclassMismatch name)).tagged span .definingClass
    else return c
  | some _ => (Run.fail (.notAClass name)).tagged pathSpan .definingClass
  | none => newClass namespace_ name isModule superclass

/-- Open a class or module and run its body with it as `self`. -/
def openClass (interp : Interp) (scope : ScopeRef) (span : Span) (path : Node)
    (superclass : Option Node) (body : List Node) (isModule : Bool) : Run Value := do
  let (namespace_, name) ← interp.location scope path
  let superclass ← interp.superclassOf scope superclass
  let c ← opened span path.span namespace_ name isModule superclass
  let inner ← Run.alloc (·.newScope
    { parent := some scope, receiver := .klass c, module := some c })
  (interp.body inner .nil body).tagged span .definingClass

end Spinel.Interp
