import Spinel.Method.Class
import Spinel.Method.Hash
import Spinel.Method.Kernel
import Spinel.Method.Module
import Spinel.Method.Range
import Spinel.Method.Text

/-!
# Invocation

Calling each kind of callable. A method runs in a new scope inside the one where it was defined,
with the receiver as `self`. A block runs inside the scope where it was written and keeps its
`self`; without parameters it runs in that very scope.
-/

namespace Spinel

/-! ## Built-in methods -/

def Builtin.run (interp : Interp) (n : Nat) (b : Builtin) (call : Call) : Run Value :=
  match b with
  | .kernel m => Kernel.run interp n m call
  | .object m => Universal.run interp m call
  | .nil m => Universal.runNil m
  | .module m => Reflection.run m call
  | .klass m => Creation.run interp m call
  | .numeric m => Arithmetic.run m call
  | .integer m => Arithmetic.runInteger interp m call
  | .float m => Arithmetic.runFloat m call
  | .string m => Texts.run m call
  | .symbol m => Texts.runSymbol m call
  | .array m => Lists.run interp n m call
  | .hash m => Tables.run interp m call
  | .range m => Ranges.run interp m call
  | .proc m => Ranges.runProc interp m call

/-! ## Methods made while programs run -/

/-- The class or module that a path of constants leads to from the top level. -/
def Heap.classAt? (h : Heap) (path : List String) : Option ClassRef :=
  path.foldlM (fun c name => ((h.klass c).constants.get? name).bind Value.klass?) Core.object

mutual

/-- Build a value. Unknown names stand for `nil`. -/
def Literal.build : Literal → Run Value
  | .nil => return .nil
  | .bool b => return .bool b
  | .int x => return .int x
  | .float x => return .float x
  | .str s => Run.newText s
  | .symbol s => return .symbol s
  | .range low high => return .range low high
  | .array items => do Run.newList (← buildAll items)
  | .hash pairs => do Run.newHash (← buildPairs pairs)
  | .global name => return .ofOption (← Run.reading (·.findLocal Core.root name))
  | .constant path => return .ofOption ((← Run.reading (·.classAt? path)).map .klass)

def Literal.buildAll : List Literal → Run (List Value)
  | [] => pure []
  | l :: rest => do
    let v ← l.build
    let vs ← buildAll rest
    pure (v :: vs)

def Literal.buildPairs : List (Literal × Literal) → Run (List (Value × Value))
  | [] => pure []
  | (k, l) :: rest => do
    let key ← k.build
    let v ← l.build
    let vs ← buildPairs rest
    pure ((key, v) :: vs)

end

/-- Add to the counter that an object keeps in `@n`. -/
def bumpCounter (call : Call) : Run Value := do
  let count := ((← Run.reading (·.instanceVariable call.receiver "@n")).int?).getD 0
  let by_ := (call.args.head?.bind Value.int?).getD 1
  Universal.assign call.receiver "@n" (.int (count + by_))

def HostMethod.run (interp : Interp) (m : HostMethod) (call : Call) : Run Value :=
  match m with
  | .arguments => Run.newList call.args
  | .receiver => return call.receiver
  | .constant value => value.build
  | .fail message => Run.fail (.external message)
  | .call name => interp.send call.receiver name call.args none
  | .bump => bumpCounter call
  | .yield =>
    match call.block with
    | some block => interp.yieldTo block call.receiver call.args
    | none => return .nil

def Native.run (interp : Interp) (m : Native) (call : Call) : Run Value :=
  match m with
  | .symbolCall name =>
    match call.args with
    | receiver :: rest => interp.send receiver name rest call.block
    | [] => Run.wrongCount [] 1 none
  | .reader slot => Run.reading (·.instanceVariable call.receiver slot)
  | .writer slot => do Universal.assign call.receiver slot (← Run.single call.args)
  | .host m => m.run interp call

/-! ## Methods and blocks of programs -/

/-- The variables that a call starts with. Parameters without an argument are not set, arguments
without a parameter are dropped. -/
def Params.bind (p : Params) (args : List Value) (block : Option Callable) :
    OrderedMap String Value :=
  let named := OrderedMap.ofList (p.names.zip args)
  match p.block with
  | none => named
  | some name => named.insert name (.ofOption (block.map .proc))

/-- A single array is spread over several parameters. -/
def Params.spread (p : Params) (args : List Value) : Run (List Value) := do
  match args with
  | [.array r] =>
    if 1 < p.names.length then return (← Run.reading (·.list r)).toList else return args
  | args => return args

/-- Run the body of a method or block, whose failures belong to its source. -/
def Interp.runBody (interp : Interp) (site : Site) (scope : ScopeRef) (body : List Node) :
    Run Value :=
  (interp.body scope .nil body).mapFailure (·.inFile site.source.label)

def Interp.runMethod (interp : Interp) (m : Method) (captured : ScopeRef) (call : Call) :
    Run Value := do
  let outer ← Run.reading (·.scope captured)
  let scope ← Run.alloc (·.newScope
    { locals := m.params.bind call.args call.block, parent := some captured,
      receiver := call.receiver, module := outer.module, block := call.block, kind := .plain })
  interp.runBody m.site scope m.body

def Interp.runBlock (interp : Interp) (b : Block) (captured : ScopeRef) (call : Call) :
    Run Value := do
  if b.params.isEmpty then interp.runBody b.site captured b.body
  else
    let outer ← Run.reading (·.scope captured)
    let args ← b.params.spread call.args
    let scope ← Run.alloc (·.newScope
      { locals := b.params.bind args call.block, parent := some captured,
        receiver := outer.receiver, module := outer.module, block := outer.block, kind := .block })
    interp.runBody b.site scope b.body

def Callable.run (interp : Interp) (n : Nat) (c : Callable) (call : Call) : Run Value :=
  match c with
  | .method m captured => interp.runMethod m captured call
  | .block b captured => interp.runBlock b captured call
  | .builtin b => b.run interp n call
  | .native _ m => m.run interp call

end Spinel
