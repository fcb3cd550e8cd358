import Spinel.Method.Numeric
import Spinel.Slice
import Spinel.Text.Case
import Spinel.Text.Quoted

/-!
# Methods of strings and symbols

Strings are sequences of code points. All methods give new strings but the one that appends.
-/

namespace Spinel

namespace Texts

/-- The order of a string and the one argument, if that is a string. -/
def compare? (s : String) (args : List Value) : Run (Option Ordering) := do
  match ← Run.single args with
  | .str r => return some (compare s (← Run.reading (·.text r)))
  | _ => return none

/-- A test of the order of two strings, `nil` if the second is none. -/
def comparison (s : String) (args : List Value) (test : Ordering → Bool) : Run Value := do
  match ← compare? s args with
  | some o => return .bool (test o)
  | none => return .nil

/-- A string again and again. -/
def copies (s : String) (count : Nat) : String :=
  if s.isEmpty then "" else String.join (List.replicate count s)

/-- The most bytes that can be counted. -/
def byteLimit : Nat := twoPow 64 - 1

def times (s : String) (args : List Value) : Run Value := do
  let count ← Run.intArgument args
  if count.toInt < 0 then Run.fail (.negativeArgument count)
  let size := s.utf8ByteSize * count.toInt.toNat
  if byteLimit < size then Run.fail .overflow
  Run.checkSize size
  Run.newText (copies s count.toInt.toNat)

/-- Whether one of some strings fits. They are looked at in order, and all that are looked at have
to be strings. -/
def anyText (test : List Char → Bool) : List Value → Run Value
  | [] => return .bool false
  | v :: rest => do
    let s ← Run.needText v
    if test s.toList then return .bool true else anyText test rest

/-- A stretch of characters, `nil` for none. -/
def substring (cs : List Char) : Option (Nat × Nat) → Run Value
  | some (start, stop) => Run.newChars ((cs.take stop).drop start)
  | none => return .nil

/-- A part of a string: the character at an index, a stretch, or a string that occurs in it. -/
def index (cs : List Char) (args : List Value) : Run Value := do
  match args with
  | [.int i] =>
    match (Slice.index? i.toInt cs.length).bind (cs[·]?) with
    | some c => Run.newChars [c]
    | none => return .nil
  | [.int start, .int count] => substring cs (Slice.slice? start.toInt count.toInt cs.length)
  | [v] => part v
  | args => Run.wrongCount args 1 (some 2)
where
  part (v : Value) : Run Value := do
    match ← Run.reading (·.range? v) with
    | some (low, high) => substring cs (Slice.between? low.toInt high.toInt cs.length)
    | none =>
      match ← Run.reading (·.text? v) with
      | some needle => if Text.occursIn needle.toList cs then Run.newText needle else return .nil
      | none => Run.wrongShape v .integer

def append (receiver : Value) (args : List Value) : Run Value := do
  let r ← Run.needTextRef receiver
  let s ← Run.textArgument args
  Run.modifyHeap (·.modifyText r (· ++ s))
  return receiver

/-- The parts of a text around a separator. A blank stands for any stretch of white space, and the
empty separator cuts between all characters. -/
def parts (sep cs : List Char) : List (List Char) :=
  if sep = [' '] then Text.words cs
  else if sep.isEmpty then cs.map ([·])
  else Text.dropEmptyEnd (Text.pieces sep cs)

/-- An array of strings. -/
def newTextArray (texts : List (List Char)) : Run Value := do
  Run.newList (← Run.newTexts (texts.map String.ofList))

def split (cs : List Char) (args : List Value) : Run Value := do
  match args with
  | [] => newTextArray (Text.words cs)
  | [.str r] => newTextArray (parts (← Run.reading (·.text r)).toList cs)
  | [v] => Run.wrongShape v .string
  | args => Run.wrongCount args 0 (some 1)

def run (m : StringMethod) (call : Call) : Run Value := do
  match m with
  | .itself => return call.receiver
  | .append => append call.receiver call.args
  | m =>
    let s ← Run.needText call.receiver
    let cs := s.toList
    match m with
    | .itself | .append => return call.receiver
    | .add => Run.newText (s ++ (← Run.textArgument call.args))
    | .times => times s call.args
    | .compare => return Arithmetic.orderValue (← compare? s call.args)
    | .less => comparison s call.args (·.isLT)
    | .greater => comparison s call.args (·.isGT)
    | .atMost => comparison s call.args (·.isLE)
    | .atLeast => comparison s call.args (·.isGE)
    | .length => return .int (.ofNat cs.length)
    | .upcase => Run.newChars (Text.upper cs)
    | .downcase => Run.newChars (Text.lower cs)
    | .capitalize => Run.newChars (Text.capitalized cs)
    | .reverse => Run.newChars cs.reverse
    | .strip => Run.newChars (Text.trim cs)
    | .toSymbol => return .symbol s
    | .toInteger => Run.exactly (Text.leadingInteger cs)
    | .toFloat => return .float (Text.leadingFloat cs)
    | .inspect => Run.newText (Text.quoted s)
    | .includes => return .bool (Text.occursIn (← Run.textArgument call.args).toList cs)
    | .isEmpty => return .bool cs.isEmpty
    | .startsWith => anyText (·.isPrefixOf cs) call.args
    | .endsWith => anyText (Text.endsWith · cs) call.args
    | .index => index cs call.args
    | .split => split cs call.args
    | .chars => newTextArray (cs.map ([·]))

/-! ## Symbols -/

/-- The order of a symbol and the one argument, if that is a symbol. -/
def compareSymbols (name : String) (args : List Value) : Run Value := do
  match ← Run.single args with
  | .symbol other => return Arithmetic.orderValue (some (compare name other))
  | _ => return .nil

def runSymbol (m : SymbolMethod) (call : Call) : Run Value := do
  match m with
  | .itself => return call.receiver
  | m =>
    let name ← Run.needSymbol call.receiver
    match m with
    | .itself => return call.receiver
    | .text => Run.newText name
    | .toProc => return .proc (← Run.newNative (.symbolCall name))
    | .inspect => Run.newText (Text.symbolText name)
    | .length => return .int (.ofNat name.length)
    | .compare => compareSymbols name call.args

end Texts

end Spinel
