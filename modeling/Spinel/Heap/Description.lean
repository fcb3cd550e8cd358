import Spinel.Decimal.FloatText
import Spinel.Heap.Classes
import Spinel.Text.Escaped

/-!
# Descriptions of values

A plain description of a value that calls no method of it. Messages quote it, and it stands in for
the text of a value whose own method gives none. Nothing cuts off collections that contain
themselves: these have no description.
-/

namespace Spinel

/-- Texts in a row with commas between them. -/
def commaJoined (parts : List String) : String := ", ".intercalate parts

/-- The parameters of a block. -/
def Params.description (p : Params) : String :=
  let block :=
    match p.block with
    | none => "None"
    | some name => "Some(" ++ Text.escaped name ++ ")"
  "Params \x7b names: [" ++ commaJoined (p.names.map Text.escaped) ++ "], block: " ++ block ++
    " \x7d"

/-- A callable. -/
def Callable.description : Callable → String
  | .method m _ => "Func(Func::Method(" ++ Text.escaped m.name ++ "))"
  | .block b _ => "Func(Func::Block(" ++ b.params.description ++ "))"
  | .builtin _ => "Func(Func::Builtin)"
  | .native .. => "Func(Func::NativeClosure)"

namespace Heap

/-- An object by the name of its class. -/
def objectLabel (h : Heap) (r : ObjectRef) : String := "#<" ++ h.fullName (h.object r).klass ++ ">"

/-- The description of a value, if its collections are nested at most `n` deep. -/
def describeWithin (h : Heap) (n : Nat) (v : Value) : Option String :=
  let inside : Value → Option String :=
    match n with
    | 0 => fun _ => none
    | n + 1 => h.describeWithin n
  match v with
  | .nil => some "nil"
  | .bool b => some (if b then "true" else "false")
  | .int x => some (toString x)
  | .float x => some (floatText x)
  | .symbol s => some (":" ++ s)
  | .str r => some (Text.escaped (h.text r))
  | .array r => do
    let items ← (h.list r).toList.mapM inside
    return "[" ++ commaJoined items ++ "]"
  | .hash r => do
    let entries ← (h.table r).values.mapM fun e => do
      return (← inside e.key) ++ ": " ++ (← inside e.value)
    return "\x7b" ++ commaJoined entries ++ "\x7d"
  | .range low high => some s!"{low}..{high}"
  | .klass c => some (h.fullName c)
  | .proc c => some c.description
  | .object r => some (h.objectLabel r)

/-- The description of a value. Values that do not contain themselves are nested no deeper than
there are collections; of others, making one does not end. -/
def describe (h : Heap) (v : Value) : Option String :=
  h.describeWithin (h.lists.size + h.tables.size) v

/-- The text of a value that has no method for it. -/
def plainText (h : Heap) : Value → Option String
  | .object r => some (h.objectLabel r)
  | .klass c => some (h.fullName c)
  | .proc _ => some "#<Proc>"
  | v => h.describe v

end Heap

end Spinel
