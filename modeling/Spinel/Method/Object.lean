import Spinel.Heap.HashCode
import Spinel.Method.Argument

/-!
# Methods of every value

Class, text, equality, instance variables, and sending messages by name.
-/

namespace Spinel

namespace Universal

/-- The text of a value that defines none. -/
def text (receiver : Value) : Run Value := do
  match receiver with
  | .object r =>
    if r == Core.main then Run.newText "main"
    else Run.newText (← Run.reading (·.objectLabel r))
  | v => Run.newText (← Run.readingSome (·.plainText v))

/-- Variables and what they look like. -/
def variableTexts (interp : Interp) : List (String × Value) → Run (List String)
  | [] => pure []
  | (name, v) :: rest => do
    let s ← interp.inspect v
    let more ← variableTexts interp rest
    pure ((name ++ "=" ++ s) :: more)

/-- The look of an object: its class and its instance variables. -/
def inspect (interp : Interp) (receiver : Value) : Run Value := do
  match receiver with
  | .object r =>
    let slots ← Run.reading fun h => (h.object r).slots
    if r == Core.main || slots.isEmpty then text receiver
    else
      let name ← Run.reading fun h => h.fullName (h.object r).klass
      Run.newText (← Run.guardInspecting (.object r) ("#<" ++ name ++ " ...>") do
        let parts ← variableTexts interp slots.entries
        return "#<" ++ name ++ " " ++ commaJoined parts ++ ">")
  | v => text v

def respondsTo (receiver : Value) (args : List Value) : Run Value := do
  let name ← Run.needName (← Run.single args)
  return .bool (← Run.reading fun h => (h.methodOf receiver name).isSome)

def send (interp : Interp) (call : Call) : Run Value := do
  match call.args with
  | [] => Run.wrongCount [] 1 none
  | name :: rest => interp.send call.receiver (← Run.needName name) rest call.block

def variableGet (receiver : Value) (args : List Value) : Run Value := do
  let name ← Run.needName (← Run.single args)
  Run.reading (·.instanceVariable receiver name)

/-- Set an instance variable. -/
def assign (receiver : Value) (name : String) (v : Value) : Run Value := do
  match ← Run.reading (·.setInstanceVariable receiver name v) with
  | some heap =>
    Run.modifyHeap fun _ => heap
    return v
  | none => Run.fail (.noInstanceVariables receiver.shape)

def variableSet (receiver : Value) (args : List Value) : Run Value := do
  match args with
  | [name, v] => assign receiver (← Run.needName name) v
  | args => Run.wrongCount args 2 (some 2)

/-- The names of the instance variables of an object. Other values list none. -/
def variableNames (receiver : Value) : Run Value := do
  match receiver with
  | .object r =>
    let names ← Run.reading fun h => (h.object r).slots.keys
    Run.newList (names.map .symbol)
  | _ => Run.newList []

def run (interp : Interp) (m : ObjectMethod) (call : Call) : Run Value := do
  let receiver := call.receiver
  match m with
  | .classOf => return .klass (← Run.reading (·.classOf receiver))
  | .inspect => inspect interp receiver
  | .text => text receiver
  | .hashCode => return .int (← Run.reading (·.hashCode receiver))
  | .equals =>
    let other ← Run.single call.args
    return .bool (← Run.reading (·.equal receiver other))
  | .differs => return .bool !(← interp.send receiver "==" call.args none).truthy
  | .negate => return .bool !receiver.truthy
  | .identical =>
    let other ← Run.single call.args
    return .bool (← Run.reading (·.same receiver other))
  | .isNil => return .bool receiver.isNil
  | .respondsTo => respondsTo receiver call.args
  | .send => send interp call
  | .variableGet => variableGet receiver call.args
  | .variableSet => variableSet receiver call.args
  | .variableNames => variableNames receiver
  | .isA =>
    let c ← Run.needClass (← Run.single call.args)
    return .bool (← Run.reading fun h => h.isSubclassOf (h.classOf receiver) c)
  | .instanceOf =>
    let c ← Run.needClass (← Run.single call.args)
    return .bool (← Run.reading fun h => h.classOf receiver == c)

def runNil : NilMethod → Run Value
  | .text => Run.newText ""
  | .list => Run.newList []
  | .inspect => Run.newText "nil"

end Universal

end Spinel
