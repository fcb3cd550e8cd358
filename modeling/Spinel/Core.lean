import Spinel.Heap.Classes

/-!
# The core classes

The classes that every session starts with, where they stand on the heap, and which of them a value
belongs to.
-/

namespace Spinel

namespace Core

def object : ClassRef := ⟨0⟩
def module : ClassRef := ⟨1⟩
def klass : ClassRef := ⟨2⟩
def numeric : ClassRef := ⟨3⟩
def integer : ClassRef := ⟨4⟩
def float : ClassRef := ⟨5⟩
def string : ClassRef := ⟨6⟩
def symbol : ClassRef := ⟨7⟩
def array : ClassRef := ⟨8⟩
def hash : ClassRef := ⟨9⟩
def range : ClassRef := ⟨10⟩
def proc : ClassRef := ⟨11⟩
def nilClass : ClassRef := ⟨12⟩
def trueClass : ClassRef := ⟨13⟩
def falseClass : ClassRef := ⟨14⟩

/-- The object that is `self` at the top level. -/
def main : ObjectRef := ⟨0⟩

/-- The scope of the top level. -/
def root : ScopeRef := ⟨0⟩

/-- The methods of a table under their names. -/
def methodsOf {α : Type} (wrap : α → Builtin) (table : List (String × α)) :
    List (String × Callable) :=
  table.map fun (name, m) => (name, .builtin (wrap m))

/-- The constants of `Float`. -/
def floatConstants : List (String × Value) :=
  [("INFINITY", .float (.ofBits 0x7FF0000000000000)), ("NAN", .float (.ofBits 0x7FF8000000000000)),
    ("EPSILON", .float (.ofBits 0x3CB0000000000000)), ("MAX", .float (.ofBits 0x7FEFFFFFFFFFFFFF)),
    ("MIN", .float (.ofBits 0x0010000000000000))]

/-- A core class. -/
def classWith (name : String) (superclass : Option ClassRef)
    (methods : List (String × Callable))
    (nodup : (methods.map (·.1)).Nodup := by decide +kernel) : Class :=
  { name, superclass, methods := ⟨methods, nodup⟩ }

/-- The core classes without their constants, in the order of their places. -/
def bareClasses : List Class :=
  [classWith "Object" none
      (methodsOf .kernel KernelMethod.table ++ methodsOf .object ObjectMethod.table),
    classWith "Module" (some object) (methodsOf .module ModuleMethod.table),
    classWith "Class" (some module) (methodsOf .klass ClassMethod.table),
    classWith "Numeric" (some object) (methodsOf .numeric NumericMethod.table),
    classWith "Integer" (some numeric) (methodsOf .integer IntegerMethod.table),
    { classWith "Float" (some numeric) (methodsOf .float FloatMethod.table) with
      constants := ⟨floatConstants, by decide +kernel⟩ },
    classWith "String" (some object) (methodsOf .string StringMethod.table),
    classWith "Symbol" (some object) (methodsOf .symbol SymbolMethod.table),
    classWith "Array" (some object) (methodsOf .array ArrayMethod.table),
    classWith "Hash" (some object) (methodsOf .hash HashMethod.table),
    classWith "Range" (some object) (methodsOf .range RangeMethod.table),
    classWith "Proc" (some object) (methodsOf .proc ProcMethod.table),
    classWith "NilClass" (some object) (methodsOf .nil NilMethod.table),
    classWith "TrueClass" (some object) [],
    classWith "FalseClass" (some object) []]

/-- The core classes by name. -/
def classConstants : List (String × Value) :=
  bareClasses.zipIdx.map fun (c, i) => (c.name, .klass ⟨i⟩)

/-- The core classes. All of them are constants of the first, `Object`. -/
def classes : List Class :=
  match bareClasses with
  | [] => []
  | first :: rest => { first with constants := ⟨classConstants, by decide +kernel⟩ } :: rest

/-- The heap before any program has run. -/
def heap : Heap where
  classes := ⟨classes.toArray⟩
  objects := ⟨#[{ klass := object }]⟩
  scopes := ⟨#[{ receiver := .object main, module := some object }]⟩

end Core

namespace Heap

/-- The class of a value. -/
def classOf (h : Heap) : Value → ClassRef
  | .nil => Core.nilClass
  | .bool true => Core.trueClass
  | .bool false => Core.falseClass
  | .int _ => Core.integer
  | .float _ => Core.float
  | .symbol _ => Core.symbol
  | .str _ => Core.string
  | .array _ => Core.array
  | .hash _ => Core.hash
  | .range .. => Core.range
  | .proc _ => Core.proc
  | .klass c => if (h.klass c).isModule then Core.module else Core.klass
  | .object r => (h.object r).klass

/-- The method that a class or module has as a value: of itself or a superclass alone, or an
instance method of `Class` or `Module`. -/
def methodOfClass (h : Heap) (c : ClassRef) (name : String) : Option Callable :=
  ((h.ancestors c).findSome? fun k =>
    (h.klass k).singleton.bind fun s => (h.klass s).methods.get? name) <|>
    h.findMethod (h.classOf (.klass c)) name

/-- The method that a value responds to. -/
def methodOf (h : Heap) (v : Value) (name : String) : Option Callable :=
  match v with
  | .object r => h.findMethod ((h.object r).singleton.getD (h.object r).klass) name
  | .klass c => h.methodOfClass c name
  | v => h.findMethod (h.classOf v) name

/-- The class whose class variables a piece of program sees that runs with the receiver. -/
def classVariableOwner (h : Heap) : Value → ClassRef
  | .klass c => c
  | v => h.classOf v

/-- An instance variable, `nil` if it is not set. -/
def instanceVariable (h : Heap) (receiver : Value) (name : String) : Value :=
  match receiver with
  | .object r => .ofOption ((h.object r).slots.get? name)
  | .klass c => .ofOption ((h.klass c).slots.get? name)
  | _ => .nil

/-- Set an instance variable, which only objects and classes have. -/
def setInstanceVariable (h : Heap) (receiver : Value) (name : String) (v : Value) : Option Heap :=
  match receiver with
  | .object r => some (h.setObjectVariable r name v)
  | .klass c => some (h.setClassVariable c name v)
  | _ => none

end Heap

end Spinel
