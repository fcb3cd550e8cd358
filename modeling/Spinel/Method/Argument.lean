import Spinel.Dispatch

/-!
# Receivers and arguments

What built-in methods need their receiver and arguments to be. A value of another shape is refused.
-/

namespace Spinel.Run

/-- What a value is on the heap, or a refusal that names the shape that is needed. -/
def needs {α : Type} (wanted : Shape) (f : Heap → Value → Option α) (v : Value) : Run α := do
  match ← reading (f · v) with
  | some a => pure a
  | none => wrongShape v wanted

def needInt : Value → Run Int64 := needs .integer fun _ v => v.int?

def needFloat : Value → Run Float := needs .float fun _ v => v.float?

def needSymbol : Value → Run String := needs .symbol fun _ v => v.symbol?

/-- A symbol or string, as a name. -/
def needName : Value → Run String := needs .symbol Heap.name?

def needText : Value → Run String := needs .string Heap.text?

def needTextRef : Value → Run TextRef := needs .string Heap.textRef?

def needList : Value → Run ListRef := needs .array Heap.listRef?

def needTable : Value → Run TableRef := needs .hash Heap.tableRef?

def needRange : Value → Run (Int64 × Int64) := needs .range Heap.range?

def needProc : Value → Run Callable := needs .proc Heap.proc?

def needItems (v : Value) : Run (Array Value) := do
  let r ← needList v
  reading (·.list r)

/-- The one argument, an integer. -/
def intArgument (args : List Value) : Run Int64 := do needInt (← single args)

/-- The one argument, a string. -/
def textArgument (args : List Value) : Run String := do needText (← single args)

/-- Names, all of which have to be such. -/
def needNames : List Value → Run (List String)
  | [] => pure []
  | v :: rest => do
    let name ← needName v
    let names ← needNames rest
    pure (name :: names)

/-- An integer that may not fit. -/
def exactly (x : Option Int64) : Run Value := do return .int (← ofOption .overflow x)

/-- Refuse a size beyond the limit. -/
def checkSize (size : Nat) : Run Unit := do
  if (← reading (·.limit)) < size then fail .sizeTooBig

/-- Go through `count` integers in steps, starting at `i`. -/
def foldInts {σ : Type} (step : Int) (f : σ → Int64 → Run σ) : (count : Nat) → (i : Int) → σ → Run σ
  | 0, _, acc => pure acc
  | count + 1, i, acc => do
    let acc ← f acc (.ofInt i)
    foldInts step f count (i + step) acc

end Spinel.Run
