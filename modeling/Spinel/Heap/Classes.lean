import Spinel.Heap

/-!
# The graph of classes

Chains of superclasses and of enclosing modules, qualified names, the lookup of methods and
constants along the chains, and the hidden classes that hold the methods of one object or class
alone. A superclass is always older than its subclasses, so no chain is longer than the number of
classes.
-/

namespace Spinel.Heap

/-- The class and its superclasses, at most `n` of them. -/
def ancestorsWithin (h : Heap) : Nat → ClassRef → List ClassRef
  | 0, c => [c]
  | n + 1, c =>
    match (h.klass c).superclass with
    | none => [c]
    | some s => c :: h.ancestorsWithin n s

/-- The class and its superclasses, nearest first. -/
def ancestors (h : Heap) (c : ClassRef) : List ClassRef := h.ancestorsWithin h.classes.size c

def isSubclassOf (h : Heap) (c other : ClassRef) : Bool := (h.ancestors c).contains other

/-- The class and the ones it stands in, at most `n` of these. -/
def enclosingWithin (h : Heap) : Nat → ClassRef → List ClassRef
  | 0, c => [c]
  | n + 1, c =>
    match (h.klass c).parent with
    | none => [c]
    | some p => c :: h.enclosingWithin n p

/-- The class and the classes and modules it stands in, innermost first. -/
def enclosing (h : Heap) (c : ClassRef) : List ClassRef := h.enclosingWithin h.classes.size c

/-- The name of a class behind those of the modules it stands in. -/
def fullName (h : Heap) (c : ClassRef) : String :=
  "::".intercalate ((h.enclosing c).reverse.map fun k => (h.klass k).name)

/-! ## Lookup -/

/-- The nearest method of a name. -/
def findMethod (h : Heap) (c : ClassRef) (name : String) : Option Callable :=
  (h.ancestors c).findSome? fun k => (h.klass k).methods.get? name

/-- The nearest constant of a name among a class and its superclasses. -/
def findConstant (h : Heap) (c : ClassRef) (name : String) : Option Value :=
  (h.ancestors c).findSome? fun k => (h.klass k).constants.get? name

/-- The nearest class variable of a name. -/
def findClassVariable (h : Heap) (c : ClassRef) (name : String) : Option Value :=
  (h.ancestors c).findSome? fun k => (h.klass k).slots.get? name

/-- The class whose variable of a name is meant: the nearest that has it, or the class itself. -/
def classVariableHolder (h : Heap) (c : ClassRef) (name : String) : ClassRef :=
  ((h.ancestors c).find? fun k => (h.klass k).slots.contains name).getD c

/-! ## Changes -/

def setMethod (h : Heap) (c : ClassRef) (name : String) (m : Callable) : Heap :=
  h.modifyClass c fun k => { k with methods := k.methods.insert name m }

def setConstant (h : Heap) (c : ClassRef) (name : String) (v : Value) : Heap :=
  h.modifyClass c fun k => { k with constants := k.constants.insert name v }

def setClassVariable (h : Heap) (c : ClassRef) (name : String) (v : Value) : Heap :=
  h.modifyClass c fun k => { k with slots := k.slots.insert name v }

def setObjectVariable (h : Heap) (r : ObjectRef) (name : String) (v : Value) : Heap :=
  h.modifyObject r fun o => { o with slots := o.slots.insert name v }

/-- The class that holds the methods of a class alone, made when it is first needed. -/
def classSingleton (h : Heap) (c : ClassRef) : ClassRef × Heap :=
  match (h.klass c).singleton with
  | some s => (s, h)
  | none =>
    let name := "#<Class:" ++ h.fullName c ++ ">"
    let (s, h) := h.newClass { name, isSingleton := true }
    (s, h.modifyClass c fun k => { k with singleton := some s })

/-- The class that holds the methods of an object alone, made when it is first needed. It inherits
from the object's class. -/
def objectSingleton (h : Heap) (r : ObjectRef) : ClassRef × Heap :=
  match (h.object r).singleton with
  | some s => (s, h)
  | none =>
    let klass := (h.object r).klass
    let name := "#<Class:#<" ++ h.fullName klass ++ ">>"
    let (s, h) := h.newClass { name, isSingleton := true, superclass := some klass }
    (s, h.modifyObject r fun o => { o with singleton := some s })

end Spinel.Heap
