import Spinel.Method.Argument
import Spinel.Number.Bounded

/-!
# Making instances

What `new` does. Classes of built-in values make such a value, and their subclasses an object around
it; all other classes make a plain object and initialize it. Values that are only ever written down
cannot be made.
-/

namespace Spinel

namespace Creation

/-- What stands behind the instances of a class. -/
inductive Layout where
  | array
  | string
  | hash
  | range
  | proc
  | object

/-- What a core class decides about its instances: nothing, or a layout, if they can be made. -/
def decides (c : ClassRef) : Option (Option Layout) :=
  if c == Core.array then some (some .array)
  else if c == Core.string then some (some .string)
  else if c == Core.hash then some (some .hash)
  else if c == Core.range then some (some .range)
  else if c == Core.proc then some (some .proc)
  else if [Core.integer, Core.float, Core.numeric, Core.symbol, Core.nilClass, Core.trueClass,
    Core.falseClass, Core.klass, Core.module].contains c then some none
  else none

/-- The layout of the instances of a class, which its nearest core ancestor decides. Without one
they are plain objects. -/
def layout? (h : Heap) (c : ClassRef) : Option Layout :=
  if (h.klass c).isModule || (h.klass c).isSingleton then none
  else ((h.ancestors c).findSome? decides).getD (some .object)

/-! ## Built-in values -/

/-- Call the block with the indices from `i` on. -/
def itemsFrom (interp : Interp) (receiver : Value) (block : Callable) :
    (count : Nat) → (i : Int) → Run (List Value)
  | 0, _ => pure []
  | count + 1, i => do
    let v ← interp.yieldTo block receiver [.int (.ofInt i)]
    let vs ← itemsFrom interp receiver block count (i + 1)
    pure (v :: vs)

/-- An array of a size, filled by the block if there is one. -/
def filledArray (interp : Interp) (call : Call) (size : Int64) (fill : Value) : Run Value := do
  if size.toInt < 0 then Run.fail (.negativeArgument size)
  let count := size.toInt.toNat
  Run.checkSize count
  match call.block with
  | some block => Run.newList (← itemsFrom interp call.receiver block count 0)
  | none => Run.newArray (Array.replicate count fill)

def newArray (interp : Interp) (call : Call) : Run Value := do
  match call.args with
  | [] => Run.newList []
  | [.int size] => filledArray interp call size .nil
  | [.int size, fill] => filledArray interp call size fill
  | [v] => Run.newArray (← itemsOr v)
  | [v, _] => Run.wrongShape v .integer
  | args => Run.wrongCount args 0 (some 2)
where
  /-- The items of an array, where an integer could have been. -/
  itemsOr (v : Value) : Run (Array Value) := do
    match ← Run.reading (·.listRef? v) with
    | some r => Run.reading (·.list r)
    | none => Run.wrongShape v .integer

def newString (args : List Value) : Run Value := do
  match args with
  | [] => Run.newText ""
  | [.str r] => Run.newText (← Run.reading (·.text r))
  | [v] => Run.wrongShape v .string
  | args => Run.wrongCount args 0 (some 1)

def newHash (args : List Value) : Run Value := do
  match args with
  | [] => Run.newHash []
  | args => Run.wrongCount args 0 (some 0)

/-- A range between two values, which have to be integers. -/
def rangeBetween (low high : Value) (exclusive : Bool) : Run Value :=
  match low, high with
  | .int low, .int high =>
    return .range low (if exclusive then saturated (high.toInt - 1) else high)
  | .int _, other => Run.fail (.badRangeBound other.shape)
  | other, _ => Run.fail (.badRangeBound other.shape)

def newRange (args : List Value) : Run Value :=
  match args with
  | [low, high] => rangeBetween low high false
  | [low, high, exclusive] => rangeBetween low high exclusive.truthy
  | args => Run.wrongCount args 2 (some 3)

/-! ## Objects -/

/-- A plain object, initialized with the arguments. -/
def newObject (interp : Interp) (c : ClassRef) (call : Call) : Run Value := do
  let object := Value.object (← Run.alloc (·.newObject { klass := c }))
  match ← Run.reading (·.methodOf object "initialize") with
  | some m =>
    let _ ← interp (.invoke m object call.args call.block)
    return object
  | none => if call.args.isEmpty then return object else Run.wrongCount call.args 0 (some 0)

/-- A built-in value, or an object around it if the class is a subclass. -/
def wrapped (c : ClassRef) (v : Value) : Run Value := do
  if (← Run.reading (·.classOf v)) == c then return v
  else return .object (← Run.alloc (·.newObject { klass := c, base := some v }))

def create (interp : Interp) (c : ClassRef) (call : Call) : Run Value := do
  match ← Run.reading (layout? · c) with
  | none => Interp.noMethod call.receiver "new"
  | some .object => newObject interp c call
  | some .array => wrapped c (← newArray interp call)
  | some .string => wrapped c (← newString call.args)
  | some .hash => wrapped c (← newHash call.args)
  | some .range => wrapped c (← newRange call.args)
  | some .proc => wrapped c (.proc (← Run.needBlock call.block))

def run (interp : Interp) (m : ClassMethod) (call : Call) : Run Value := do
  let c ← Run.needClass call.receiver
  match m with
  | .create => create interp c call
  | .superclass =>
    return .ofOption ((← Run.reading fun h => (h.klass c).superclass).map .klass)

end Creation

end Spinel
