import Spinel.Method.Object
import Spinel.Text.Words

/-!
# Methods of classes and modules

Names, accessors for instance variables, and what a class knows about itself.
-/

namespace Spinel

namespace Reflection

/-! ## Accessors -/

/-- Define a method that reads the instance variable of a name. -/
def defineReader (c : ClassRef) (name : String) : Run Value := do
  let m ← Run.newNative (.reader ("@" ++ name))
  Run.modifyHeap (·.setMethod c name m)
  return .symbol name

/-- Define a method that writes the instance variable of a name. -/
def defineWriter (c : ClassRef) (name : String) : Run Value := do
  let m ← Run.newNative (.writer ("@" ++ name))
  Run.modifyHeap (·.setMethod c (name ++ "=") m)
  return .symbol (name ++ "=")

def defineReaders (c : ClassRef) : List String → Run (List Value)
  | [] => pure []
  | name :: rest => do
    let v ← defineReader c name
    let vs ← defineReaders c rest
    pure (v :: vs)

def defineWriters (c : ClassRef) : List String → Run (List Value)
  | [] => pure []
  | name :: rest => do
    let v ← defineWriter c name
    let vs ← defineWriters c rest
    pure (v :: vs)

def defineAccessors (c : ClassRef) : List String → Run (List Value)
  | [] => pure []
  | name :: rest => do
    let r ← defineReader c name
    let w ← defineWriter c name
    let vs ← defineAccessors c rest
    pure (r :: w :: vs)

/-! ## What a class has -/

/-- The names of the methods of a class itself, but for constructors. -/
def ownMethodNames (h : Heap) (c : ClassRef) : List String :=
  ((h.klass c).methods.entries.filter fun (_, m) => !m.isConstructor).map (·.1)

/-- The classes whose methods are listed for a class with those it inherits. The methods that every
value has are left out, unless the class is the one that has them. -/
def listedClasses (h : Heap) (c : ClassRef) : List ClassRef :=
  (h.ancestors c).takeWhile fun k => k == c || k != Core.object

/-- The names of methods in the order of the classes, each once. -/
def methodNames (h : Heap) (classes : List ClassRef) : List String :=
  (classes.flatMap (ownMethodNames h)).eraseDups

def instanceMethods (c : ClassRef) (args : List Value) : Run Value := do
  match args with
  | [] => list fun h => listedClasses h c
  | [inherited] => list fun h => if inherited.truthy then listedClasses h c else [c]
  | args => Run.wrongCount args 0 (some 1)
where
  list (classes : Heap → List ClassRef) : Run Value := do
    let names ← Run.reading fun h => methodNames h (classes h)
    Run.newList (names.map .symbol)

def methodDefined (c : ClassRef) (args : List Value) : Run Value := do
  let name ← Run.needName (← Run.single args)
  return .bool (← Run.reading fun h => (h.findMethod c name).isSome)

/-- A constant of a class or one of its superclasses. -/
def constantOf (scope : Value) (name : String) : Run Value := do
  let c ← Run.needClass scope
  Run.ofOption (.uninitializedConstant name) (← Run.reading (·.findConstant c name))

/-- Follow constants from one to the next. -/
def followPath (from_ : Value) : List String → Run Value
  | [] => pure from_
  | name :: rest => do
    let v ← constantOf from_ name
    followPath v rest

/-- The names in a qualified name. -/
def segments (path : String) : List String :=
  ((Text.pieces [':', ':'] path.toList).filter (!·.isEmpty)).map String.ofList

def constantGet (c : ClassRef) (args : List Value) : Run Value := do
  let path ← Run.needName (← Run.single args)
  followPath (.klass c) (segments path)

def run (m : ModuleMethod) (call : Call) : Run Value := do
  let c ← Run.needClass call.receiver
  match m with
  | .name => Run.newText (← Run.reading (·.fullName c))
  | .caseEquals =>
    let v ← Run.single call.args
    return .bool (← Run.reading fun h => h.isSubclassOf (h.classOf v) c)
  | .accessor => Run.newList (← defineAccessors c (← Run.needNames call.args))
  | .reader => Run.newList (← defineReaders c (← Run.needNames call.args))
  | .writer => Run.newList (← defineWriters c (← Run.needNames call.args))
  | .instanceMethods => instanceMethods c call.args
  | .methodDefined => methodDefined c call.args
  | .constantGet => constantGet c call.args
  | .ancestors => Run.newList ((← Run.reading (·.ancestors c)).map .klass)

end Reflection

end Spinel
