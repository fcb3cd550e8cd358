import Spinel.Method.Argument

/-!
# Methods of hashes

Entries in the order of their insertion. Methods that call a block go through the entries that were
there when they were called.
-/

namespace Spinel

namespace Tables

/-- The pairs of keys and values, in order. -/
def pairs (t : Table) : List (Value × Value) := t.values.map fun e => (e.key, e.value)

/-- The value that a hash has under a key. -/
def lookUp (h : Heap) (t : Table) (key : Value) : Option Value := (t.get? (h.key key)).map (·.value)

/-- Write a value under a key. An entry that is there keeps its key. -/
def put (r : TableRef) (key value : Value) : Run Unit :=
  Run.modifyHeap fun h =>
    let filed := h.key key
    match (h.table r).get? filed with
    | some e => h.modifyTable r (·.insert filed { e with value })
    | none =>
      let (kept, h) := h.entryKey key
      h.modifyTable r (·.insert filed ⟨kept, value⟩)

def store (receiver : Value) (args : List Value) : Run Value := do
  match args with
  | [key, value] =>
    let r ← Run.needTable receiver
    put r key value
    return value
  | args => Run.wrongCount args 2 (some 2)

def delete (receiver : Value) (args : List Value) : Run Value := do
  let key ← Run.single args
  let r ← Run.needTable receiver
  let value ← Run.reading fun h => lookUp h (h.table r) key
  Run.modifyHeap fun h => h.modifyTable r (·.erase (h.key key))
  return .ofOption value

/-- Call a block with each pair as an array, and gather the answers. -/
def overPairs (interp : Interp) (receiver : Value) (block : Callable) :
    List (Value × Value) → Run (List Value)
  | [] => pure []
  | (key, value) :: rest => do
    let pair ← Run.newList [key, value]
    let answer ← interp.yieldTo block receiver [pair]
    let answers ← overPairs interp receiver block rest
    pure (answer :: answers)

/-- Call the block with each pair. -/
def answers (interp : Interp) (call : Call) : Run (List Value) := do
  let block ← Run.needBlock call.block
  let r ← Run.needTable call.receiver
  overPairs interp call.receiver block (pairs (← Run.reading (·.table r)))

/-- Arrays of a key and a value each. -/
def pairArrays : List (Value × Value) → Run (List Value)
  | [] => pure []
  | (key, value) :: rest => do
    let pair ← Run.newList [key, value]
    let more ← pairArrays rest
    pure (pair :: more)

def merge (receiver : Value) (args : List Value) : Run Value := do
  let other ← Run.needTable (← Run.single args)
  let r ← Run.needTable receiver
  Run.newHash (← Run.reading fun h => pairs (h.table r) ++ pairs (h.table other))

/-- What the pairs look like. -/
def pairTexts (interp : Interp) : List (Value × Value) → Run (List String)
  | [] => pure []
  | (key, value) :: rest => do
    let k ← interp.inspect key
    let v ← interp.inspect value
    let more ← pairTexts interp rest
    pure ((k ++ "=>" ++ v) :: more)

def inspect (interp : Interp) (r : TableRef) : Run Value := do
  let entries ← Run.reading fun h => pairs (h.table r)
  Run.newText (← Run.guardInspecting (.table r) "\x7b...\x7d" do
    return "\x7b" ++ commaJoined (← pairTexts interp entries) ++ "\x7d")

/-- Whether a hash has an equal value under each of some keys. -/
def allEqual (interp : Interp) (other : TableRef) : List (Value × Value) → Run Bool
  | [] => pure true
  | (key, value) :: rest => do
    match ← Run.reading fun h => lookUp h (h.table other) key with
    | none => pure false
    | some theirs =>
      if ← interp.equals value theirs then allEqual interp other rest else pure false

def equals (interp : Interp) (r : TableRef) (args : List Value) : Run Value := do
  let other ← Run.single args
  match ← Run.reading (·.tableRef? other) with
  | none => return .bool false
  | some s =>
    if r == s then return .bool true
    let ours ← Run.reading (·.table r)
    let theirs ← Run.reading (·.table s)
    if ours.size != theirs.size then return .bool false
    return .bool (← Run.guardComparing (.table r, .table s) (allEqual interp s (pairs ours)))

def needEntries (v : Value) : Run Table := do
  let r ← Run.needTable v
  Run.reading (·.table r)

def run (interp : Interp) (m : HashMethod) (call : Call) : Run Value := do
  let receiver := call.receiver
  match m with
  | .index =>
    let key ← Run.single call.args
    let t ← needEntries receiver
    return .ofOption (← Run.reading (lookUp · t key))
  | .store => store receiver call.args
  | .delete => delete receiver call.args
  | .clear =>
    let r ← Run.needTable receiver
    Run.modifyHeap (·.modifyTable r fun _ => .empty)
    return receiver
  | .size => return .int (.ofNat (← needEntries receiver).size)
  | .isEmpty => return .bool (← needEntries receiver).isEmpty
  | .hasKey =>
    let key ← Run.single call.args
    let t ← needEntries receiver
    return .bool (← Run.reading fun h => t.contains (h.key key))
  | .keys => Run.newList ((← needEntries receiver).values.map (·.key))
  | .values => Run.newList ((← needEntries receiver).values.map (·.value))
  | .each =>
    let _ ← answers interp call
    return receiver
  | .map => Run.newList (← answers interp call)
  | .merge => merge receiver call.args
  | .toArray => Run.newList (← pairArrays (pairs (← needEntries receiver)))
  | .inspect => inspect interp (← Run.needTable receiver)
  | .equals => equals interp (← Run.needTable receiver) call.args

end Tables

end Spinel
