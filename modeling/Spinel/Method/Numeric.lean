import Spinel.Method.Argument
import Spinel.Number.Real
import Spinel.Text.Numeral

/-!
# Methods of numbers

Arithmetic and comparison of integers and floats, integers by their bits, digits and loops, and the
rounding of floats. Where an integer meets a float, both are floats.
-/

namespace Spinel

namespace Arithmetic

/-- Apply one function to two integers, another to two numbers of which one is a float. -/
def operate (x y : Value) (onInts : Int64 → Int64 → Run Value) (onFloats : Float → Float → Float) :
    Run Value :=
  match x, y with
  | .int a, .int b => onInts a b
  | .int a, .float b => return .float (onFloats a.toFloat b)
  | .float a, .int b => return .float (onFloats a b.toFloat)
  | .float a, .float b => return .float (onFloats a b)
  | x, y => Run.fail (.notCoercible y.shape x.shape)

def divideInts (x y : Int64) : Run Value :=
  if y.toInt = 0 then Run.fail .divisionByZero else Run.exactly (Integer.floorDivide x y)

def moduloInts (x y : Int64) : Run Value :=
  if y.toInt = 0 then Run.fail .divisionByZero else return .int (Integer.floorModulo x y)

/-- A power of integers, which is a float for a negative exponent. -/
def powerInts (x y : Int64) : Run Value :=
  if y.toInt < 0 then return .float (x.toFloat.pow y.toFloat)
  else Run.exactly (Integer.power x y.toInt.toNat)

/-- How two numbers compare, if they do. -/
def compare? : Value → Value → Option Ordering
  | .int a, .int b => some (compare a.toInt b.toInt)
  | x, y => do Real.compare? (← x.toFloat?) (← y.toFloat?)

/-- A test of the order of two numbers, `nil` if the second is none. -/
def comparison (x : Value) (args : List Value) (test : Ordering → Bool) : Run Value := do
  let y ← Run.single args
  if y.toFloat?.isNone then return .nil
  else return .bool ((compare? x y).any test)

/-- The order of two values as an integer, `nil` if they do not compare. -/
def orderValue : Option Ordering → Value
  | some .lt => .int (-1)
  | some .eq => .int 0
  | some .gt => .int 1
  | none => .nil

def negate : Value → Run Value
  | .int x => Run.exactly (Integer.negate x)
  | .float x => return .float (-x)
  | v => Run.wrongShape v .integer

def absolute : Value → Run Value
  | .int x => Run.exactly (Integer.absolute x)
  | .float x => return .float x.abs
  | v => Run.wrongShape v .integer

/-! ## Integers -/

/-- An integer in a base, ten if none is given. -/
def integerText (x : Int64) (args : List Value) : Run Value := do
  match args with
  | [] => Run.newText (toString x)
  | [base] =>
    let base ← Run.needInt base
    if 2 ≤ base.toInt ∧ base.toInt ≤ 36 then Run.newText (Text.radixText x base.toInt.toNat)
    else Run.fail (.invalidArgument "radix")
  | args => Run.wrongCount args 0 (some 1)

/-- Call a block with `count` integers from `start` on, in steps. -/
def loop (interp : Interp) (receiver : Value) (block : Callable) (step : Int) (count : Nat)
    (start : Int) : Run Value := do
  Run.foldInts step (fun _ i => do let _ ← interp.yieldTo block receiver [.int i]) count start ()
  return receiver

def times (interp : Interp) (call : Call) : Run Value := do
  let block ← Run.needBlock call.block
  let x ← Run.needInt call.receiver
  loop interp call.receiver block 1 x.toInt.toNat 0

def upTo (interp : Interp) (call : Call) : Run Value := do
  let limit ← Run.intArgument call.args
  let block ← Run.needBlock call.block
  let x ← Run.needInt call.receiver
  loop interp call.receiver block 1 (Integer.rangeSize x limit) x.toInt

def downTo (interp : Interp) (call : Call) : Run Value := do
  let limit ← Run.intArgument call.args
  let block ← Run.needBlock call.block
  let x ← Run.needInt call.receiver
  loop interp call.receiver block (-1) (Integer.rangeSize limit x) x.toInt

/-! ## Floats -/

/-- The integer that a whole float is. -/
def wholeInt (x : Float) : Run Value :=
  if !x.isFinite then Run.fail (.notFinite x)
  else if Real.inRange x then return .int x.toInt64
  else Run.fail .overflow

/-- More places than these make no difference to a float. -/
def mostPlaces : Nat := 308

/-- Round to a number of places behind the point, halves away from zero. Rounding to no place, or to
places before the point, gives an integer. -/
def roundTo (x : Float) (places : Int64) : Run Value :=
  let scale := Real.powerOfTen (min places.toInt.natAbs mostPlaces)
  if places.toInt ≤ 0 then wholeInt ((x / scale).round * scale)
  else if !x.isFinite then return .float x
  else return .float ((x * scale).round / scale)

def round (x : Float) (args : List Value) : Run Value := do
  match args with
  | [] => wholeInt x.round
  | [places] => roundTo x (← Run.needInt places)
  | args => Run.wrongCount args 0 (some 1)

/-- The sign of an infinite float, `nil` for others. -/
def infinitySign (x : Float) : Value :=
  if x.isInf then .int (if 0.0 < x then 1 else -1) else .nil

/-! ## All methods -/

def run (m : NumericMethod) (call : Call) : Run Value := do
  let x := call.receiver
  match m with
  | .add =>
    operate x (← Run.single call.args) (fun a b => Run.exactly (Integer.add a b)) (· + ·)
  | .subtract =>
    operate x (← Run.single call.args) (fun a b => Run.exactly (Integer.subtract a b)) (· - ·)
  | .multiply =>
    operate x (← Run.single call.args) (fun a b => Run.exactly (Integer.multiply a b)) (· * ·)
  | .divide => operate x (← Run.single call.args) divideInts (· / ·)
  | .modulo => operate x (← Run.single call.args) moduloInts Real.floorModulo
  | .power => operate x (← Run.single call.args) powerInts Float.pow
  | .less => comparison x call.args (·.isLT)
  | .greater => comparison x call.args (·.isGT)
  | .atMost => comparison x call.args (·.isLE)
  | .atLeast => comparison x call.args (·.isGE)
  | .compare => return orderValue (compare? x (← Run.single call.args))
  | .negate => negate x
  | .itself => return x
  | .absolute => absolute x
  | .isZero => return .bool (x.toFloat?.any (· == 0.0))
  | .toFloat => return .float (← Run.needs .float (fun _ v => v.toFloat?) x)

def runInteger (interp : Interp) (m : IntegerMethod) (call : Call) : Run Value := do
  match m with
  | .itself => return call.receiver
  | .times => times interp call
  | .upTo => upTo interp call
  | .downTo => downTo interp call
  | .bitAnd => return .int ((← Run.needInt call.receiver) &&& (← Run.intArgument call.args))
  | .bitOr => return .int ((← Run.needInt call.receiver) ||| (← Run.intArgument call.args))
  | .bitXor => return .int ((← Run.needInt call.receiver) ^^^ (← Run.intArgument call.args))
  | .shiftLeft =>
    let x ← Run.needInt call.receiver
    Run.exactly (Integer.shiftLeft x (← Run.intArgument call.args))
  | .shiftRight =>
    let x ← Run.needInt call.receiver
    Run.exactly (Integer.shiftRight x (← Run.intArgument call.args))
  | .isEven => return .bool (Integer.isEven (← Run.needInt call.receiver))
  | .isOdd => return .bool !(Integer.isEven (← Run.needInt call.receiver))
  | .successor => Run.exactly (Integer.add (← Run.needInt call.receiver) 1)
  | .predecessor => Run.exactly (Integer.subtract (← Run.needInt call.receiver) 1)
  | .text => integerText (← Run.needInt call.receiver) call.args

def runFloat (m : FloatMethod) (call : Call) : Run Value := do
  let x ← Run.needFloat call.receiver
  match m with
  | .truncate => wholeInt (Real.truncate x)
  | .ceiling => wholeInt x.ceil
  | .floor => wholeInt x.floor
  | .round => round x call.args
  | .isNaN => return .bool x.isNaN
  | .isFinite => return .bool x.isFinite
  | .infinitySign => return infinitySign x
  | .text => Run.newText (floatText x)

end Arithmetic

end Spinel
