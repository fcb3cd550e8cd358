import Spinel.Evaluation

/-!
# Sessions

What a host does with a session: start one, run sources in it, call methods, look at and set
top-level variables and constants, and add classes and methods of its own. All of these run on the
state that the ones before left, also those that failed.
-/

namespace Spinel.Session

/-- How deep evaluation may go. No program that ends goes deeper in practice. -/
def depth : Nat := twoPow 62

/-- The evaluator of sessions. -/
def evaluator : Interp := interpreter depth

/-- A new session. -/
def start (sourceName : String := "main") (host : Host := {}) : World := { sourceName, host }

/-! ## Running sources -/

/-- Run the main program. -/
def runMain (code : String) : Run Value := do
  evaluator.runText code (← get).sourceName

/-- Run a source under a label. -/
def runSource (code label : String) : Run Value := evaluator.runText code label

/-- Run a source that is read line by line. -/
def runReader (s : Stream) (label : String) : Run Value := evaluator.runStream s label

/-- Load a source through the resolver. -/
def require (path : String) : Run Bool := evaluator.require path

/-! ## Values -/

def call (receiver : Value) (name : String) (args : List Value) : Run Value :=
  evaluator.send receiver name args none

def text (v : Value) : Run String := evaluator.text v

def inspect (v : Value) : Run String := evaluator.inspect v

def respondsTo (v : Value) (name : String) : Run Bool :=
  Run.reading fun h => (h.methodOf v name).isSome

/-! ## Variables and constants -/

/-- A top-level variable. -/
def global? (name : String) : Run (Option Value) := Run.reading (·.findLocal Core.root name)

def setGlobal (name : String) (v : Value) : Run Unit :=
  Run.modifyHeap (·.defineLocal Core.root name v)

/-- A top-level constant. -/
def constant? (name : String) : Run (Option Value) :=
  Run.reading fun h => (h.klass Core.object).constants.get? name

/-! ## Classes and methods of the host -/

/-- A class of a name inside another, or at the top level. One that is there is kept as it is. -/
def defineClass (name : String) (superclass enclosing : Option ClassRef) : Run ClassRef := do
  let outer := enclosing.getD Core.object
  match ← Run.reading fun h => (h.klass outer).constants.get? name with
  | some (.klass c) => return c
  | _ => Interp.newClass outer name false superclass

def defineInstanceMethod (c : ClassRef) (name : String) (m : HostMethod) : Run Unit := do
  let m ← Run.newNative (.host m)
  Run.modifyHeap (·.setMethod c name m)

def defineClassMethod (c : ClassRef) (name : String) (m : HostMethod) : Run Unit := do
  let m ← Run.newNative (.host m)
  let singleton ← Run.alloc (·.classSingleton c)
  Run.modifyHeap (·.setMethod singleton name m)

/-- An object that carries a number for the host. -/
def newData (c : ClassRef) (data : Int64) : Run Value := do
  return .object (← Run.alloc (·.newObject { klass := c, data := some data }))

/-! ## Output -/

/-- Take what was written since the last time. -/
def takeOutput : Run String := fun w => .ok w.output { w with output := "" }

end Spinel.Session
