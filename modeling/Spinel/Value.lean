import Spinel.Builtin
import Spinel.Literal
import Spinel.Shape
import Spinel.Tree

/-!
# Values

A value is immediate (`nil`, booleans, numbers, symbols, ranges), or it refers to a cell of the
heap, or it is something that can be called. What two values share through a cell, each sees
changed by the other.
-/

namespace Spinel

/-! ## References to cells -/

/-- A text that can change. -/
structure TextRef where
  index : Nat
deriving DecidableEq, Inhabited

/-- The items of an array. -/
structure ListRef where
  index : Nat
deriving DecidableEq, Inhabited

/-- The entries of a hash. -/
structure TableRef where
  index : Nat
deriving DecidableEq, Inhabited

/-- An instance of a class. -/
structure ObjectRef where
  index : Nat
deriving DecidableEq, Inhabited

/-- A class or module. -/
structure ClassRef where
  index : Nat
deriving DecidableEq, Inhabited

/-- The variables of a piece of running program. -/
structure ScopeRef where
  index : Nat
deriving DecidableEq, Inhabited

/-! ## Callables -/

/-- What a method of the host does. -/
inductive HostMethod where
  /-- Gives its arguments as an array. -/
  | arguments
  /-- Gives the receiver. -/
  | receiver
  /-- Builds a value anew at each call. -/
  | constant (value : Literal)
  /-- Raises an error. -/
  | fail (message : String)
  /-- Calls another method of the receiver's with the same arguments. -/
  | call (name : String)
  /-- Adds the first argument, or one, to the variable `@n`. -/
  | bump
  /-- Hands the arguments to the block. -/
  | yield

/-- Methods that are made while a program runs. -/
inductive Native where
  /-- Calls the named method of its first argument. -/
  | symbolCall (name : String)
  /-- Reads an instance variable. -/
  | reader (slot : String)
  /-- Writes an instance variable. -/
  | writer (slot : String)
  | host (m : HostMethod)

/-- Anything that can be called. -/
inductive Callable where
  /-- A method and the scope in which it was defined. -/
  | method (m : Method) (scope : ScopeRef)
  /-- A block and the scope in which it was written. -/
  | block (b : Block) (scope : ScopeRef)
  | builtin (b : Builtin)
  /-- One of the methods made while the program runs, which are numbered. -/
  | native (serial : Nat) (n : Native)

namespace Callable

/-- The number of positional parameters, where they are declared. -/
def arity : Callable → Option Nat
  | .method m _ => some m.params.names.length
  | .block b _ => some b.params.names.length
  | .builtin _ | .native .. => none

/-- Constructors are not listed among the methods of a class. -/
def isConstructor : Callable → Bool
  | .method m _ => m.name == "initialize"
  | _ => false

end Callable

/-- What makes one cell or callable differ from all others. -/
inductive Identity where
  | list (r : ListRef)
  | table (r : TableRef)
  | klass (r : ClassRef)
  | object (r : ObjectRef)
  | method (site : Site) (scope : ScopeRef)
  | block (site : Site) (scope : ScopeRef)
  | builtin (b : Builtin)
  | native (serial : Nat)
deriving DecidableEq

/-- Two callables are one if they were made at the same place in the same scope. -/
def Callable.identity : Callable → Identity
  | .method m scope => .method m.site scope
  | .block b scope => .block b.site scope
  | .builtin b => .builtin b
  | .native serial _ => .native serial

/-! ## Values -/

/-- A value of a program. -/
inductive Value where
  | nil
  | bool (value : Bool)
  | int (value : Int64)
  | float (value : Float)
  | symbol (name : String)
  | str (text : TextRef)
  | array (items : ListRef)
  | hash (table : TableRef)
  /-- The integers from `low` to `high`, both included. -/
  | range (low high : Int64)
  | klass (r : ClassRef)
  | proc (c : Callable)
  | object (r : ObjectRef)

namespace Value

instance : Inhabited Value := ⟨.nil⟩

/-- Everything but `nil` and `false` counts as true. -/
def truthy : Value → Bool
  | .nil | .bool false => false
  | _ => true

def isNil : Value → Bool
  | .nil => true
  | _ => false

/-- The shape of a value. -/
def shape : Value → Shape
  | .nil => .nil
  | .bool _ => .boolean
  | .int _ => .integer
  | .float _ => .float
  | .symbol _ => .symbol
  | .str _ => .string
  | .array _ => .array
  | .hash _ => .hash
  | .range .. => .range
  | .klass _ => .klass
  | .proc _ => .proc
  | .object _ => .object

def int? : Value → Option Int64
  | .int x => some x
  | _ => none

def float? : Value → Option Float
  | .float x => some x
  | _ => none

def bool? : Value → Option Bool
  | .bool b => some b
  | _ => none

def symbol? : Value → Option String
  | .symbol s => some s
  | _ => none

def klass? : Value → Option ClassRef
  | .klass c => some c
  | _ => none

/-- A number as a float. -/
def toFloat? : Value → Option Float
  | .int x => some x.toFloat
  | .float x => some x
  | _ => none

/-- A value that may be missing, for which `nil` stands in. -/
def ofOption : Option Value → Value
  | none => .nil
  | some v => v

end Value

end Spinel
