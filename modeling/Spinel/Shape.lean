/-!
# Shapes of values

The built-in kinds of values, and the words that messages use for them.
-/

namespace Spinel

/-- The kinds of values. Instances of all classes that programs define have one shape. -/
inductive Shape where
  | nil
  | boolean
  | integer
  | float
  | string
  | symbol
  | array
  | hash
  | range
  | klass
  | proc
  | object
deriving DecidableEq

/-- The word for a shape. -/
def Shape.name : Shape → String
  | .nil => "nil"
  | .boolean => "Boolean"
  | .integer => "Integer"
  | .float => "Float"
  | .string => "String"
  | .symbol => "Symbol"
  | .array => "Array"
  | .hash => "Hash"
  | .range => "Range"
  | .klass => "Class"
  | .proc => "Proc"
  | .object => "Object"

end Spinel
