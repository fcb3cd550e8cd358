import Spinel.Method.Argument
import Spinel.Slice

/-!
# Methods of arrays

Reading, writing, and going through the items. Methods that call a block for each item look at the
array anew before each call, so the block may change it.
-/

namespace Spinel

namespace Lists

/-! ## Reading and writing -/

/-- A stretch of items as a new array, `nil` for none. -/
def stretch (items : Array Value) : Option (Nat × Nat) → Run Value
  | some (start, stop) => Run.newArray (items.extract start stop)
  | none => return .nil

def index (items : Array Value) (args : List Value) : Run Value := do
  match args with
  | [.int i] => return .ofOption ((Slice.index? i.toInt items.size).bind (items[·]?))
  | [.int start, .int count] => stretch items (Slice.slice? start.toInt count.toInt items.size)
  | [v] =>
    match ← Run.reading (·.range? v) with
    | some (low, high) => stretch items (Slice.between? low.toInt high.toInt items.size)
    | none => Run.wrongShape v .integer
  | args => Run.wrongCount args 1 (some 2)

/-- The items with `v` at a place, behind as many `nil`s as that needs. -/
def written (items : Array Value) (i : Nat) (v : Value) : Array Value :=
  if i < items.size then items.setIfInBounds i v
  else (items ++ Array.replicate (i - items.size) Value.nil).push v

/-- Write at an index. Places beyond the end are filled with `nil`. -/
def storeAt (r : ListRef) (i : Int64) (v : Value) : Run Value := do
  let size ← Run.reading fun h => (h.list r).size
  let place := Slice.fromEnd i.toInt size
  if place < 0 then Run.fail (.indexTooSmall i)
  if size ≤ place then Run.checkSize (place.toNat + 1)
  Run.modifyHeap (·.modifyList r (written · place.toNat v))
  return v

def store (r : ListRef) (args : List Value) : Run Value := do
  match args with
  | [.int i, v] => storeAt r i v
  | [i, _] => Run.wrongShape i .integer
  | args => Run.wrongCount args 2 (some 2)

def pushOne (receiver : Value) (args : List Value) : Run Value := do
  let v ← Run.single args
  let r ← Run.needList receiver
  Run.modifyHeap (·.modifyList r (·.push v))
  return receiver

def push (receiver : Value) (args : List Value) : Run Value := do
  let r ← Run.needList receiver
  Run.modifyHeap (·.modifyList r (· ++ args.toArray))
  return receiver

def pop (r : ListRef) : Run Value := do
  let last ← Run.reading fun h => (h.list r).back?
  Run.modifyHeap (·.modifyList r (·.pop))
  return .ofOption last

/-- A number of items that may not be negative. -/
def needCount (v : Value) : Run Nat := do
  let count ← Run.needInt v
  if count.toInt < 0 then Run.fail (.negativeArgument count)
  return count.toInt.toNat

def first (items : Array Value) (args : List Value) : Run Value := do
  match args with
  | [] => return .ofOption items[0]?
  | [count] => Run.newArray (items.extract 0 (← needCount count))
  | args => Run.wrongCount args 0 (some 1)

def last (items : Array Value) (args : List Value) : Run Value := do
  match args with
  | [] => return .ofOption items.back?
  | [count] => Run.newArray (items.extract (items.size - (← needCount count)) items.size)
  | args => Run.wrongCount args 0 (some 1)

def concat (receiver : Value) (args : List Value) : Run Value := do
  let other ← Run.needItems (← Run.single args)
  let items ← Run.needItems receiver
  Run.newArray (items ++ other)

/-! ## Going through the items -/

/-- Call a block for each item from the place `i` on, with the arguments that `args` gives, and
gather the answers. -/
def gather {σ : Type} (interp : Interp) (receiver : Value) (r : ListRef) (block : Callable)
    (args : Nat → Value → List Value) (f : σ → Value → Value → σ) :
    (fuel : Nat) → (i : Nat) → σ → Run σ
  | 0, _, _ => Run.outOfFuel
  | n + 1, i, acc => do
    match ← Run.reading fun h => (h.list r)[i]? with
    | none => pure acc
    | some item => do
      let answer ← interp.yieldTo block receiver (args i item)
      gather interp receiver r block args f n (i + 1) (f acc item answer)

/-- Go through the items with a block, and gather from each item and the block's answer. -/
def overItems {σ : Type} (interp : Interp) (n : Nat) (call : Call) (f : σ → Value → Value → σ)
    (start : σ) : Run σ := do
  let block ← Run.needBlock call.block
  let r ← Run.needList call.receiver
  gather interp call.receiver r block (fun _ item => [item]) f n 0 start

def each (interp : Interp) (n : Nat) (call : Call) : Run Value := do
  overItems interp n call (fun _ _ _ => ()) ()
  return call.receiver

def eachWithIndex (interp : Interp) (n : Nat) (call : Call) : Run Value := do
  let block ← Run.needBlock call.block
  let r ← Run.needList call.receiver
  gather interp call.receiver r block (fun i item => [item, .int (.ofNat i)]) (fun _ _ _ => ())
    n 0 ()
  return call.receiver

def map (interp : Interp) (n : Nat) (call : Call) : Run Value := do
  Run.newArray (← overItems interp n call (fun acc _ answer => acc.push answer) #[])

/-- The items for which the block answers as wanted. -/
def filter (wanted : Bool) (interp : Interp) (n : Nat) (call : Call) : Run Value := do
  Run.newArray (← overItems interp n call
    (fun acc item answer => if answer.truthy == wanted then acc.push item else acc) #[])

/-! ## Folding -/

/-- Combine values from the left. -/
def fold (f : Value → Value → Run Value) : Value → List Value → Run Value
  | acc, [] => pure acc
  | acc, item :: rest => do
    let acc ← f acc item
    fold f acc rest

/-- Combine from a start, or from the first item if there is none. -/
def foldFrom (f : Value → Value → Run Value) (start : Option Value) (items : List Value) :
    Run Value :=
  match start, items with
  | some v, items => fold f v items
  | none, [] => return .nil
  | none, item :: rest => fold f item rest

/-- Fold with a block or with the method that a symbol names. -/
def reduce (interp : Interp) (items : List Value) (call : Call) : Run Value :=
  let byBlock (block : Callable) (acc item : Value) :=
    interp.yieldTo block call.receiver [acc, item]
  let byName (op : String) (acc item : Value) := interp.send acc op [item] none
  match call.args, call.block with
  | [], some block => foldFrom (byBlock block) none items
  | [start], some block => foldFrom (byBlock block) (some start) items
  | [.symbol op], none => foldFrom (byName op) none items
  | [start, .symbol op], none => foldFrom (byName op) (some start) items
  | [_, v], none => Run.wrongShape v .symbol
  | [], none | [_], none => Run.fail .noBlock
  | args, _ => Run.wrongCount args 0 (some 2)

/-- Add up the items, or what a block makes of them. -/
def sum (interp : Interp) (items : List Value) (call : Call) : Run Value :=
  let addItem (acc item : Value) : Run Value := do
    let item ← match call.block with
      | some block => interp.yieldTo block call.receiver [item]
      | none => pure item
    interp.send acc "+" [item] none
  match call.args with
  | [] => fold addItem (.int 0) items
  | [start] => fold addItem start items
  | args => Run.wrongCount args 0 (some 1)

/-! ## Sorting -/

/-- Merge two sorted lists. An item of the second goes first only if it is less. -/
@[specialize]
def merge {m : Type → Type} [Monad m] (order : Value → Value → m Ordering) :
    List Value → List Value → m (List Value)
  | [], ys => pure ys
  | xs, [] => pure xs
  | x :: xs, y :: ys => do
    if (← order y x) == .lt then
      let rest ← merge order (x :: xs) ys
      pure (y :: rest)
    else
      let rest ← merge order xs (y :: ys)
      pure (x :: rest)
termination_by xs ys => xs.length + ys.length

/-- Sort by halves. -/
@[specialize]
def sorted {m : Type → Type} [Monad m] (order : Value → Value → m Ordering) (items : List Value) :
    m (List Value) :=
  if items.length ≤ 1 then pure items
  else do
    let half := items.length / 2
    let left ← sorted order (items.take half)
    let right ← sorted order (items.drop half)
    merge order left right
termination_by items.length
decreasing_by all_goals simp_all; omega

/-- The first item that is ahead of all before it and that none behind it is ahead of, where
`wanted` is how an item compares to those that it is ahead of. -/
def extreme (interp : Interp) (wanted : Ordering) : (best : Option Value) → List Value → Run Value
  | best, [] => return .ofOption best
  | none, item :: rest => extreme interp wanted (some item) rest
  | some best, item :: rest => do
    let best := if (← interp.order item best) == wanted then item else best
    extreme interp wanted (some best) rest

/-! ## Text and equality -/

def includes (interp : Interp) (needle : Value) : List Value → Run Bool
  | [] => pure false
  | item :: rest => do
    if ← interp.equals item needle then pure true else includes interp needle rest

/-- The texts of the items with a separator between them. Arrays among the items are joined in the
same way, an array inside itself is shown in short. -/
def joined (interp : Interp) (sep : String) (n : Nat) (r : ListRef) : Run String :=
  match n with
  | 0 => Run.outOfFuel
  | n + 1 => do
    let items ← Run.reading (·.list r)
    Run.guardInspecting (.list r) "[...]" do
      return sep.intercalate (← texts (joined interp sep n) items.toList)
where
  texts (nested : ListRef → Run String) : List Value → Run (List String)
    | [] => pure []
    | item :: rest => do
      let s ← match item with
        | .array inner => nested inner
        | .nil => pure ""
        | v => interp.text v
      let ss ← texts nested rest
      pure (s :: ss)

def join (interp : Interp) (n : Nat) (r : ListRef) (args : List Value) : Run Value := do
  match args with
  | [] => Run.newText (← joined interp "" n r)
  | [sep] => Run.newText (← joined interp (← Run.needText sep) n r)
  | args => Run.wrongCount args 0 (some 1)

def inspect (interp : Interp) (r : ListRef) : Run Value := do
  let items ← Run.reading (·.list r)
  Run.newText (← Run.guardInspecting (.list r) "[...]" do
    return "[" ++ commaJoined (← interp.inspectAll items.toList) ++ "]")

/-- Whether the items of two lists are equal in pairs. -/
def allEqual (interp : Interp) : List (Value × Value) → Run Bool
  | [] => pure true
  | (x, y) :: rest => do
    if ← interp.equals x y then allEqual interp rest else pure false

def equals (interp : Interp) (r : ListRef) (args : List Value) : Run Value := do
  let other ← Run.single args
  match ← Run.reading (·.listRef? other) with
  | none => return .bool false
  | some s =>
    if r == s then return .bool true
    let xs ← Run.reading (·.list r)
    let ys ← Run.reading (·.list s)
    if xs.size != ys.size then return .bool false
    return .bool (← Run.guardComparing (.list r, .list s)
      (allEqual interp (xs.toList.zip ys.toList)))

/-! ## All methods -/

def run (interp : Interp) (n : Nat) (m : ArrayMethod) (call : Call) : Run Value := do
  let receiver := call.receiver
  match m with
  | .itself => return receiver
  | .index => index (← Run.needItems receiver) call.args
  | .store => store (← Run.needList receiver) call.args
  | .pushOne => pushOne receiver call.args
  | .push => push receiver call.args
  | .pop => pop (← Run.needList receiver)
  | .clear =>
    let r ← Run.needList receiver
    Run.modifyHeap (·.modifyList r fun _ => #[])
    return receiver
  | .first => first (← Run.needItems receiver) call.args
  | .last => last (← Run.needItems receiver) call.args
  | .each => each interp n call
  | .eachWithIndex => eachWithIndex interp n call
  | .map => map interp n call
  | .select => filter true interp n call
  | .reject => filter false interp n call
  | .reduce => reduce interp (← Run.needItems receiver).toList call
  | .sum => sum interp (← Run.needItems receiver).toList call
  | .sort => Run.newList (← sorted interp.order (← Run.needItems receiver).toList)
  | .least => extreme interp .lt none (← Run.needItems receiver).toList
  | .greatest => extreme interp .gt none (← Run.needItems receiver).toList
  | .size => return .int (.ofNat (← Run.needItems receiver).size)
  | .isEmpty => return .bool (← Run.needItems receiver).isEmpty
  | .includes =>
    let needle ← Run.single call.args
    return .bool (← includes interp needle (← Run.needItems receiver).toList)
  | .join => join interp n (← Run.needList receiver) call.args
  | .inspect => inspect interp (← Run.needList receiver)
  | .reverse => Run.newArray (← Run.needItems receiver).reverse
  | .concat => concat receiver call.args
  | .equals => equals interp (← Run.needList receiver) call.args

end Lists

end Spinel
