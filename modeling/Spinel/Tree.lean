import Spinel.Source.Position

/-!
# Syntax trees

A `Node` is a `Form` and the stretch of source it was read from. Blocks and methods remember their
`Site`, which tells two of them apart even if they are spelt alike.
-/

namespace Spinel

/-- A source text that was read: the label that messages give it, and its number among all texts
that a session has read. -/
structure SourceId where
  label : String
  serial : Nat
deriving DecidableEq, Inhabited

/-- Where a block or method stands. No two of them open at the same offset of a source. -/
structure Site where
  source : SourceId
  offset : Nat
deriving DecidableEq, Inhabited

/-- The parameters of a method or block: the positional ones, and the one that takes the block. -/
structure Params where
  names : List String := []
  block : Option String := none
deriving DecidableEq, Inhabited

def Params.isEmpty (p : Params) : Bool := p.names.isEmpty && p.block.isNone

mutual

/-- A piece of a program and the stretch of source it was read from. -/
structure Node where
  span : Span
  form : Form

/-- The shapes of programs. -/
inductive Form where
  | nil
  | boolean (value : Bool)
  | selfRef
  | integer (value : Int64)
  | float (value : Float)
  | str (text : String)
  | symbol (name : String)
  | array (items : List Node)
  | hash (pairs : List (Node × Node))
  /-- `low..high`, or `low...high` if exclusive. -/
  | range (low high : Node) (exclusive : Bool)
  | localVar (name : String)
  | instanceVar (name : String)
  | classVar (name : String)
  | globalVar (name : String)
  | constant (name : String)
  /-- `Scope::Name`. -/
  | scoped (scope : Node) (name : String)
  | call (receiver : Option Node) (name : String) (args : List Node) (block : BlockArg)
  /-- `receiver[args]`. -/
  | index (receiver : Node) (args : List Node)
  | both (left right : Node)
  | either (left right : Node)
  | assign (target value : Node)
  | branch (condition : Node) (whenTrue whenFalse : List Node)
  /-- Repeats the body as long as the condition is as wanted. -/
  | loop (wanted : Bool) (condition : Node) (body : List Node)
  /-- `for x in iterable`, which calls `each` with the block. -/
  | forEach (iterable : Node) (block : Block)
  /-- A method definition, on the target alone if there is one. -/
  | define (target : Option Node) (method : Method)
  | openClass (path : Node) (superclass : Option Node) (body : List Node)
  | openModule (path : Node) (body : List Node)
  | lambda (block : Block)
  | sequence (body : List Node)
  | yieldTo (args : List Node)
  | superCall (args : List Node)
  | returnWith (value : Option Node)
  | nextWith (value : Option Node)
  | breakOut
  | redo
  | retry

/-- What a call hands on as its block. -/
inductive BlockArg where
  | none
  /-- A block written behind the call. -/
  | literal (block : Block)
  /-- `&value`. -/
  | value (node : Node)

/-- A block, or the body of a lambda or of a `for` loop. -/
structure Block where
  site : Site
  params : Params
  body : List Node

/-- A method definition. -/
structure Method where
  site : Site
  name : String
  params : Params
  body : List Node

end

instance : Inhabited Form := ⟨.nil⟩

instance : Inhabited Node := ⟨⟨default, .nil⟩⟩

/-- Whether a node may stand to the left of `=`. -/
def Form.isAssignable : Form → Bool
  | .localVar _ | .instanceVar _ | .classVar _ | .globalVar _ | .constant _ | .scoped .. |
    .index .. => true
  | .call (some _) _ [] .none => true
  | _ => false

/-- A call of a method on a receiver, without a block. -/
def Form.send (receiver : Node) (name : String) (args : List Node) : Form :=
  .call (some receiver) name args .none

end Spinel
