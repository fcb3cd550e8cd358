/-!
# Built-in methods

The methods that the core classes start with, one enumeration for each class, and the names under
which the classes list them, in order. A method may go by several names.
-/

namespace Spinel

/-- Functions that can be called without a receiver from anywhere. -/
inductive KernelMethod where
  | puts | print | show | random | require | makeProc
deriving DecidableEq

/-- Methods that every value has. -/
inductive ObjectMethod where
  | classOf | inspect | text | hashCode | equals | differs | negate | identical | isNil | respondsTo
  | send | variableGet | variableSet | variableNames | isA | instanceOf
deriving DecidableEq

/-- Methods of `nil`. -/
inductive NilMethod where
  | text | list | inspect
deriving DecidableEq

/-- Methods of every class and module. -/
inductive ModuleMethod where
  | name | caseEquals | accessor | reader | writer | instanceMethods | methodDefined | constantGet
  | ancestors
deriving DecidableEq

/-- Methods of classes only. -/
inductive ClassMethod where
  | create | superclass
deriving DecidableEq

/-- Methods of integers and floats. -/
inductive NumericMethod where
  | add | subtract | multiply | divide | modulo | power | less | greater | atMost | atLeast
  | compare | negate | itself | absolute | isZero | toFloat
deriving DecidableEq

inductive IntegerMethod where
  | bitAnd | bitOr | bitXor | shiftLeft | shiftRight | isEven | isOdd | successor | predecessor
  | itself | text | times | upTo | downTo
deriving DecidableEq

inductive FloatMethod where
  | truncate | ceiling | floor | round | isNaN | isFinite | infinitySign | text
deriving DecidableEq

inductive StringMethod where
  | add | times | compare | less | greater | atMost | atLeast | length | upcase | downcase
  | capitalize | reverse | strip | itself | toSymbol | toInteger | toFloat | inspect | includes
  | isEmpty | startsWith | endsWith | index | append | split | chars
deriving DecidableEq

inductive SymbolMethod where
  | text | itself | toProc | inspect | length | compare
deriving DecidableEq

inductive ArrayMethod where
  | index | store | pushOne | push | pop | clear | first | last | each | eachWithIndex | map
  | select | reject | reduce | sum | sort | least | greatest | size | isEmpty | includes | join
  | inspect | itself | reverse | concat | equals
deriving DecidableEq

inductive HashMethod where
  | index | store | delete | clear | size | isEmpty | hasKey | keys | values | each | map | merge
  | toArray | inspect | equals
deriving DecidableEq

inductive RangeMethod where
  | each | map | select | toArray | first | last | size | sum | includes | text
deriving DecidableEq

inductive ProcMethod where
  | call | itself | arity
deriving DecidableEq

/-- Any built-in method. -/
inductive Builtin where
  | kernel (m : KernelMethod)
  | object (m : ObjectMethod)
  | nil (m : NilMethod)
  | module (m : ModuleMethod)
  | klass (m : ClassMethod)
  | numeric (m : NumericMethod)
  | integer (m : IntegerMethod)
  | float (m : FloatMethod)
  | string (m : StringMethod)
  | symbol (m : SymbolMethod)
  | array (m : ArrayMethod)
  | hash (m : HashMethod)
  | range (m : RangeMethod)
  | proc (m : ProcMethod)
deriving DecidableEq

/-! ## Names -/

def KernelMethod.table : List (String × KernelMethod) :=
  [("puts", .puts), ("print", .print), ("p", .show), ("rand", .random), ("require", .require),
    ("proc", .makeProc), ("lambda", .makeProc)]

def ObjectMethod.table : List (String × ObjectMethod) :=
  [("class", .classOf), ("inspect", .inspect), ("to_s", .text), ("hash", .hashCode),
    ("==", .equals), ("!=", .differs), ("!", .negate), ("equal?", .identical), ("===", .equals),
    ("nil?", .isNil), ("respond_to?", .respondsTo), ("send", .send), ("__send__", .send),
    ("instance_variable_get", .variableGet), ("instance_variable_set", .variableSet),
    ("instance_variables", .variableNames), ("is_a?", .isA), ("kind_of?", .isA),
    ("instance_of?", .instanceOf)]

def NilMethod.table : List (String × NilMethod) :=
  [("to_s", .text), ("to_a", .list), ("inspect", .inspect)]

def ModuleMethod.table : List (String × ModuleMethod) :=
  [("name", .name), ("to_s", .name), ("inspect", .name), ("===", .caseEquals),
    ("attr_accessor", .accessor), ("attr_reader", .reader), ("attr_writer", .writer),
    ("instance_methods", .instanceMethods), ("method_defined?", .methodDefined),
    ("const_get", .constantGet), ("ancestors", .ancestors)]

def ClassMethod.table : List (String × ClassMethod) :=
  [("new", .create), ("superclass", .superclass)]

def NumericMethod.table : List (String × NumericMethod) :=
  [("+", .add), ("-", .subtract), ("*", .multiply), ("/", .divide), ("%", .modulo),
    ("modulo", .modulo), ("**", .power), ("<", .less), (">", .greater), ("<=", .atMost),
    (">=", .atLeast), ("<=>", .compare), ("-@", .negate), ("+@", .itself), ("abs", .absolute),
    ("zero?", .isZero), ("to_f", .toFloat)]

def IntegerMethod.table : List (String × IntegerMethod) :=
  [("&", .bitAnd), ("|", .bitOr), ("^", .bitXor), ("<<", .shiftLeft), (">>", .shiftRight),
    ("even?", .isEven), ("odd?", .isOdd), ("succ", .successor), ("next", .successor),
    ("pred", .predecessor), ("to_i", .itself), ("to_s", .text), ("inspect", .text),
    ("times", .times), ("upto", .upTo), ("downto", .downTo)]

def FloatMethod.table : List (String × FloatMethod) :=
  [("to_i", .truncate), ("truncate", .truncate), ("ceil", .ceiling), ("floor", .floor),
    ("round", .round), ("nan?", .isNaN), ("finite?", .isFinite), ("infinite?", .infinitySign),
    ("to_s", .text), ("inspect", .text)]

def StringMethod.table : List (String × StringMethod) :=
  [("+", .add), ("*", .times), ("<=>", .compare), ("<", .less), (">", .greater), ("<=", .atMost),
    (">=", .atLeast), ("length", .length), ("size", .length), ("upcase", .upcase),
    ("downcase", .downcase), ("capitalize", .capitalize), ("reverse", .reverse),
    ("strip", .strip), ("to_s", .itself), ("to_str", .itself), ("to_sym", .toSymbol),
    ("to_i", .toInteger), ("to_f", .toFloat), ("inspect", .inspect), ("include?", .includes),
    ("empty?", .isEmpty), ("start_with?", .startsWith), ("end_with?", .endsWith), ("[]", .index),
    ("<<", .append), ("concat", .append), ("split", .split), ("chars", .chars)]

def SymbolMethod.table : List (String × SymbolMethod) :=
  [("to_s", .text), ("id2name", .text), ("name", .text), ("to_sym", .itself),
    ("to_proc", .toProc), ("inspect", .inspect), ("length", .length), ("size", .length),
    ("<=>", .compare)]

def ArrayMethod.table : List (String × ArrayMethod) :=
  [("[]", .index), ("[]=", .store), ("<<", .pushOne), ("push", .push), ("append", .push),
    ("pop", .pop), ("clear", .clear), ("first", .first), ("last", .last), ("each", .each),
    ("each_with_index", .eachWithIndex), ("map", .map), ("collect", .map), ("select", .select),
    ("filter", .select), ("reject", .reject), ("reduce", .reduce), ("inject", .reduce),
    ("sum", .sum), ("sort", .sort), ("min", .least), ("max", .greatest), ("size", .size),
    ("length", .size), ("empty?", .isEmpty), ("include?", .includes), ("join", .join),
    ("to_s", .inspect), ("inspect", .inspect), ("to_a", .itself), ("reverse", .reverse),
    ("+", .concat), ("==", .equals)]

def HashMethod.table : List (String × HashMethod) :=
  [("[]", .index), ("[]=", .store), ("store", .store), ("delete", .delete), ("clear", .clear),
    ("size", .size), ("length", .size), ("empty?", .isEmpty), ("key?", .hasKey),
    ("has_key?", .hasKey), ("include?", .hasKey), ("member?", .hasKey), ("keys", .keys),
    ("values", .values), ("each", .each), ("each_pair", .each), ("map", .map), ("merge", .merge),
    ("to_a", .toArray), ("to_s", .inspect), ("inspect", .inspect), ("==", .equals)]

def RangeMethod.table : List (String × RangeMethod) :=
  [("each", .each), ("map", .map), ("select", .select), ("to_a", .toArray), ("first", .first),
    ("begin", .first), ("last", .last), ("size", .size), ("count", .size), ("sum", .sum),
    ("include?", .includes), ("member?", .includes), ("===", .includes), ("to_s", .text),
    ("inspect", .text)]

def ProcMethod.table : List (String × ProcMethod) :=
  [("call", .call), ("()", .call), ("yield", .call), ("[]", .call), ("to_proc", .itself),
    ("arity", .arity)]

end Spinel
