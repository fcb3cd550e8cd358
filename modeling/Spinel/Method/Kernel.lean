import Spinel.Loading
import Spinel.Method.Argument

/-!
# Global functions

Output, random numbers, loading, and procs from blocks.
-/

namespace Spinel

/-- The lines that `puts` prints for a value. The items of arrays are printed instead of them, an
array inside itself in short. -/
def Interp.lines (interp : Interp) (n : Nat) (v : Value) : Run (List String) :=
  match v with
  | .nil => pure [""]
  | .array r =>
    match n with
    | 0 => Run.outOfFuel
    | n + 1 => do
      let items ← Run.reading (·.list r)
      Run.guardInspecting (.list r) ["[...]"] (all (interp.lines n) items.toList)
  | v => do return [← interp.text v]
where
  all (f : Value → Run (List String)) : List Value → Run (List String)
    | [] => pure []
    | v :: rest => do
      let ls ← f v
      let more ← all f rest
      pure (ls ++ more)

namespace Kernel

/-- The lines for one argument. An empty array is an empty line. -/
def argumentLines (interp : Interp) (n : Nat) (v : Value) : Run (List String) := do
  match v with
  | .array r =>
    if (← Run.reading (·.list r)).isEmpty then pure [""] else interp.lines n v
  | v => interp.lines n v

/-- A line with its line feed, if it has none. -/
def terminated (line : String) : String :=
  if line.toList.getLast? = some '\n' then line else line ++ "\n"

def puts (interp : Interp) (n : Nat) (args : List Value) : Run Value := do
  let lines ← Interp.lines.all (argumentLines interp n) args
  let lines := if args.isEmpty then [""] else lines
  Run.write (String.join (lines.map terminated))
  return .nil

/-- The texts of values, of which `nil` has none. -/
def printed (interp : Interp) : List Value → Run String
  | [] => pure ""
  | .nil :: rest => printed interp rest
  | v :: rest => do
    let s ← interp.text v
    let more ← printed interp rest
    pure (s ++ more)

def print (interp : Interp) (args : List Value) : Run Value := do
  Run.write (← printed interp args)
  return .nil

/-- Write what values look like, a line each, and give them back. -/
def display (interp : Interp) (args : List Value) : Run Value := do
  let lines ← interp.inspectAll args
  Run.write (String.join (lines.map (· ++ "\n")))
  match args with
  | [] => return .nil
  | [v] => return v
  | args => Run.newList args

def random (args : List Value) : Run Value := do
  match args with
  | [] => return .float (← Run.randomFloat)
  | [.int x] =>
    if x.toInt = 0 then return .float (← Run.randomFloat)
    else
      let bound := (saturated x.toInt.natAbs).toInt.toNat
      return .int (.ofInt (← Run.randomBelow bound))
  | [.float x] => return .float ((← Run.randomFloat) * x)
  | [v] =>
    match ← Run.reading (·.range? v) with
    | some (low, high) =>
      let size := (high.toInt - low.toInt + 1).toNat
      if size = 0 then return .nil
      else return .int (.ofInt (low.toInt + (← Run.randomBelow size)))
    | none => Run.wrongShape v .integer
  | args => Run.wrongCount args 0 (some 1)

def require (interp : Interp) (args : List Value) : Run Value := do
  return .bool (← interp.require (← Run.textArgument args))

def makeProc (args : List Value) (block : Option Callable) : Run Value := do
  match args with
  | [] => return .proc (← Run.needBlock block)
  | args => Run.wrongCount args 0 (some 0)

def run (interp : Interp) (n : Nat) (m : KernelMethod) (call : Call) : Run Value :=
  match m with
  | .puts => puts interp n call.args
  | .print => print interp call.args
  | .show => display interp call.args
  | .random => random call.args
  | .require => require interp call.args
  | .makeProc => makeProc call.args call.block

end Kernel

end Spinel
