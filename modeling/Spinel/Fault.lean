import Spinel.Decimal.FloatText
import Spinel.Shape
import Spinel.SyntaxError

/-!
# Faults

Why a program stops: each cause once, with its wording and the class of errors it belongs to.
-/

namespace Spinel

/-- The classes of errors. -/
inductive FaultKind where
  | syntaxError
  | nameError
  | noMethodError
  | typeError
  | argumentError
  | indexError
  | zeroDivisionError
  | rangeError
  | floatDomainError
  | loadError
  | notImplementedError
  | runtimeError
deriving DecidableEq

/-- The name of a class of errors. -/
def FaultKind.name : FaultKind → String
  | .syntaxError => "SyntaxError"
  | .nameError => "NameError"
  | .noMethodError => "NoMethodError"
  | .typeError => "TypeError"
  | .argumentError => "ArgumentError"
  | .indexError => "IndexError"
  | .zeroDivisionError => "ZeroDivisionError"
  | .rangeError => "RangeError"
  | .floatDomainError => "FloatDomainError"
  | .loadError => "LoadError"
  | .notImplementedError => "NotImplementedError"
  | .runtimeError => "RuntimeError"

/-- The causes of errors. -/
inductive Fault where
  | syntaxFault (fault : SyntaxFault)
  /-- A bare name is neither a local variable nor a method. -/
  | undefinedName (name : String)
  | uninitializedConstant (name : String)
  | uninitializedClassVariable (name : String)
  /-- No class of the receiver's has the method. -/
  | undefinedMethod (name className : String)
  /-- The right operand of an arithmetic operator is no number. -/
  | notCoercible (given wanted : Shape)
  /-- A value of one shape stands where another is needed. -/
  | notConvertible (given wanted : Shape)
  | badRangeBound (given : Shape)
  | notAClass (shown : String)
  /-- A class is reopened with another superclass. -/
  | superclassMismatch (name : String)
  | noInstanceVariables (given : Shape)
  /-- What follows `&` is no proc. -/
  | notAProc (given : Shape)
  | noSingletonMethods (given : Shape)
  /-- How many arguments came, and the least and greatest number that may. -/
  | argumentCount (given least : Nat) (greatest : Option Nat)
  | noBlock
  | negativeArgument (given : Int64)
  | invalidArgument (what : String)
  /-- A write before the start of an array. -/
  | indexTooSmall (index : Int64)
  | divisionByZero
  /-- An integer that does not fit in sixty-four bits. -/
  | overflow
  /-- A float that is no number goes where an integer is needed. -/
  | notFinite (x : Float)
  | cannotLoad (path : String)
  /-- A form that can be read but not run. -/
  | notImplemented (what : String)
  /-- An error of the host: one that a method of its raised, or output that it refused. -/
  | external (message : String)

namespace Fault

/-- The class of errors that a cause belongs to. -/
def kind : Fault → FaultKind
  | .syntaxFault _ => .syntaxError
  | .undefinedName _ | .uninitializedConstant _ | .uninitializedClassVariable _ => .nameError
  | .undefinedMethod .. => .noMethodError
  | .notCoercible .. | .notConvertible .. | .badRangeBound _ | .notAClass _ |
    .superclassMismatch _ | .noInstanceVariables _ | .notAProc _ | .noSingletonMethods _ =>
    .typeError
  | .argumentCount .. | .noBlock | .negativeArgument _ | .invalidArgument _ => .argumentError
  | .indexTooSmall _ => .indexError
  | .divisionByZero => .zeroDivisionError
  | .overflow => .rangeError
  | .notFinite _ => .floatDomainError
  | .cannotLoad _ => .loadError
  | .notImplemented _ => .notImplementedError
  | .external _ => .runtimeError

/-- The numbers of arguments that may come. -/
def expectedCount (least : Nat) : Option Nat → String
  | none => s!"{least}+"
  | some greatest => if greatest = least then s!"{least}" else s!"{least}..{greatest}"

/-- The wording of each cause. -/
def message : Fault → String
  | .syntaxFault fault => fault.message
  | .undefinedName name => s!"undefined local variable or method '{name}'"
  | .uninitializedConstant name => s!"uninitialized constant {name}"
  | .uninitializedClassVariable name => s!"uninitialized class variable {name}"
  | .undefinedMethod name className =>
    s!"undefined method '{name}' for an instance of {className}"
  | .notCoercible given wanted => given.name ++ " can't be coerced into " ++ wanted.name
  | .notConvertible given wanted =>
    "no implicit conversion of " ++ given.name ++ " into " ++ wanted.name
  | .badRangeBound given => "bad value for range: " ++ given.name
  | .notAClass shown => s!"{shown} is not a class/module"
  | .superclassMismatch name => s!"superclass mismatch for class {name}"
  | .noInstanceVariables given => "can't modify instance variables of " ++ given.name
  | .notAProc given => "wrong argument type " ++ given.name ++ " (expected Proc)"
  | .noSingletonMethods given => "can't define singleton method for " ++ given.name
  | .argumentCount given least greatest =>
    s!"wrong number of arguments (given {given}, expected " ++ expectedCount least greatest ++ ")"
  | .noBlock => "no block given"
  | .negativeArgument given => s!"negative argument ({given})"
  | .invalidArgument what => s!"invalid argument: {what}"
  | .indexTooSmall index => s!"index {index} too small for array"
  | .divisionByZero => "divided by 0"
  | .overflow => "integer overflow"
  | .notFinite x => floatText x
  | .cannotLoad path => s!"cannot load such file -- {path}"
  | .notImplemented what => s!"'{what}' is not implemented"
  | .external message => message

/-- More memory was asked for than there can be. -/
def sizeTooBig : Fault := .invalidArgument "size too big"

end Fault

end Spinel
