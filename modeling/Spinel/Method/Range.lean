import Spinel.Method.Array
import Spinel.Number.Integer

/-!
# Methods of ranges and procs

A range is the integers between two bounds, both included, and is gone through without being
written out.
-/

namespace Spinel

namespace Ranges

/-- Go through the integers of a range. -/
def foldItems {σ : Type} (low high : Int64) (f : σ → Int64 → Run σ) (start : σ) : Run σ :=
  Run.foldInts 1 f (Integer.rangeSize low high) low.toInt start

def each (interp : Interp) (call : Call) : Run Value := do
  let block ← Run.needBlock call.block
  let (low, high) ← Run.needRange call.receiver
  foldItems low high (fun _ i => do let _ ← interp.yieldTo block call.receiver [.int i]) ()
  return call.receiver

def map (interp : Interp) (call : Call) : Run Value := do
  let block ← Run.needBlock call.block
  let (low, high) ← Run.needRange call.receiver
  Run.newArray (← foldItems low high
    (fun acc i => do return acc.push (← interp.yieldTo block call.receiver [.int i])) #[])

def select (interp : Interp) (call : Call) : Run Value := do
  let block ← Run.needBlock call.block
  let (low, high) ← Run.needRange call.receiver
  let keep (acc : Array Value) (i : Int64) : Run (Array Value) := do
    if (← interp.yieldTo block call.receiver [.int i]).truthy then return acc.push (.int i)
    else return acc
  Run.newArray (← foldItems low high keep #[])

/-- An array of `count` integers from `low` on. -/
def newInts (low : Int64) (count : Nat) : Run Value :=
  Run.newList ((Integer.upFrom low count).map .int)

def first (low high : Int64) (args : List Value) : Run Value := do
  match args with
  | [] => return .int low
  | [count] => newInts low (min (← Lists.needCount count) (Integer.rangeSize low high))
  | args => Run.wrongCount args 0 (some 1)

/-- Where the last `count` integers of a range start. The steps there stay among the integers. -/
def lastStart (low high : Int64) (count : Nat) : Int64 :=
  let start := saturated ((saturated (high.toInt - count)).toInt + 1)
  if start.toInt < low.toInt then low else start

def last (low high : Int64) (args : List Value) : Run Value := do
  match args with
  | [] => return .int high
  | [count] =>
    let start := lastStart low high (← Lists.needCount count)
    newInts start (Integer.rangeSize start high)
  | args => Run.wrongCount args 0 (some 1)

def sum (interp : Interp) (call : Call) : Run Value := do
  let (low, high) ← Run.needRange call.receiver
  let addItem (acc : Value) (i : Int64) : Run Value := do
    let item ← match call.block with
      | some block => interp.yieldTo block call.receiver [.int i]
      | none => pure (.int i)
    interp.send acc "+" [item] none
  foldItems low high addItem (.int 0)

/-- Whether a number lies between the bounds. -/
def holds (low high : Int64) : Value → Bool
  | .int x => low.toInt ≤ x.toInt && x.toInt ≤ high.toInt
  | .float x => low.toFloat ≤ x && x ≤ high.toFloat
  | _ => false

def run (interp : Interp) (m : RangeMethod) (call : Call) : Run Value := do
  match m with
  | .each => each interp call
  | .map => map interp call
  | .select => select interp call
  | .sum => sum interp call
  | m =>
    let (low, high) ← Run.needRange call.receiver
    match m with
    | .each | .map | .select | .sum => return .nil
    | .toArray => newInts low (Integer.rangeSize low high)
    | .first => first low high call.args
    | .last => last low high call.args
    | .size => Run.exactly (int64? (Integer.rangeSize low high))
    | .includes => return .bool (holds low high (← Run.single call.args))
    | .text => Run.newText s!"{low}..{high}"

/-! ## Procs -/

def runProc (interp : Interp) (m : ProcMethod) (call : Call) : Run Value := do
  match m with
  | .itself => return call.receiver
  | .call =>
    interp (.invoke (← Run.needProc call.receiver) call.receiver call.args call.block)
  | .arity =>
    match (← Run.needProc call.receiver).arity with
    | some n => return .int (.ofNat n)
    | none => return .int (-1)

end Ranges

end Spinel
