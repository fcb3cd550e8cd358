import Spinel.Core
import Spinel.Heap.Description
import Spinel.Heap.Equality
import Spinel.Heap.Scopes
import Spinel.Resolver

/-!
# Running programs

The state of a session, and computations that change it and may fail. What a computation changed
before it failed stays changed.
-/

namespace Spinel

/-- How much of a text is taken and why the rest is refused, if not all of it is taken. The answer
may depend on the texts that were given before, the last one first. -/
abbrev Writer := (given : List String) → (text : String) → Option (String × String)

/-- Nothing is refused. -/
def Writer.TakesAll (write : Writer) : Prop := ∀ given text, write given text = none

/-- What a session is given by its host. -/
structure Host where
  /-- How `require` finds a text. -/
  resolve : Resolver := .none
  /-- Where output goes. -/
  write : Writer := fun _ _ => none
  /-- The random bits, in the order in which they are drawn. -/
  draw : Nat → UInt64 := fun _ => 0

/-- The state of a session. -/
structure World where
  heap : Heap := Core.heap
  host : Host := {}
  /-- What was written so far. -/
  output : String := ""
  /-- The texts that were given to the writer, the last one first. -/
  given : List String := []
  /-- The paths that the resolver was asked for, the last one first. -/
  asked : List String := []
  /-- The paths that `require` has found. -/
  loaded : List String := []
  /-- How many times random bits were drawn. -/
  drawn : Nat := 0
  /-- The label of the main program. -/
  sourceName : String := "main"
  /-- The collections and objects whose text is being made, innermost first. -/
  inspecting : List Identity := []
  /-- The pairs of collections that are being compared, innermost first. -/
  comparing : List (Identity × Identity) := []
  /-- How many sources were read. -/
  sources : Nat := 0
  /-- How many methods were made while programs ran. -/
  natives : Nat := 0

/-- Why a computation gave no result. -/
inductive Halt where
  | failed (f : Failure)
  /-- The bound on its depth was too small, or none is large enough. -/
  | outOfFuel

instance : Inhabited Halt := ⟨.outOfFuel⟩

/-- A computation in a session. -/
abbrev Run := EStateM Halt World

namespace Run

variable {α : Type}

/-- Fail for a cause. -/
def fail (fault : Fault) : Run α := throw (.failed { fault })

def outOfFuel : Run α := throw .outOfFuel

/-- Change a failure on its way out. -/
def mapFailure (f : Failure → Failure) (x : Run α) : Run α := fun w =>
  match x w with
  | .ok a w => .ok a w
  | .error (.failed e) w => .error (.failed (f e)) w
  | .error .outOfFuel w => .error .outOfFuel w

/-- Note the place in a failure that passes. -/
def tagged (span : Span) (action : Action) (x : Run α) : Run α :=
  x.mapFailure (·.tag span action)

/-- The result, or a failure if there is none. -/
def ofOption (fault : Fault) : Option α → Run α
  | some a => pure a
  | none => fail fault

/-! ## The heap -/

/-- Read something off the heap. -/
def reading (f : Heap → α) : Run α := fun w => .ok (f w.heap) w

/-- Read something off the heap that is not there if reading it does not end. -/
def readingSome (f : Heap → Option α) : Run α := do
  match ← reading f with
  | some a => pure a
  | none => outOfFuel

theorem readingSome_apply (f : Heap → Option α) (w : World) :
    readingSome f w = match f w.heap with
      | some a => .ok a w
      | none => .error .outOfFuel w := by
  change (match f w.heap with | some a => pure a | none => outOfFuel : Run α) w = _
  cases f w.heap <;> rfl

def modifyHeap (f : Heap → Heap) : Run Unit := fun w => .ok () { w with heap := f w.heap }

/-- Add a cell to the heap. -/
def alloc (f : Heap → α × Heap) : Run α := fun w =>
  let (a, heap) := f w.heap
  .ok a { w with heap }

/-- A new string. -/
def newText (s : String) : Run Value := do return .str (← alloc (·.newText s))

/-- A new string of characters. -/
def newChars (cs : List Char) : Run Value := newText (.ofList cs)

/-- A new array. -/
def newArray (items : Array Value) : Run Value := do return .array (← alloc (·.newList items))

/-- A new array of the items of a list. -/
def newList (items : List Value) : Run Value := newArray items.toArray

/-- New strings. -/
def newTexts : List String → Run (List Value)
  | [] => pure []
  | s :: rest => do
    let v ← newText s
    let vs ← newTexts rest
    pure (v :: vs)

/-- A new hash of pairs, of which later ones win. -/
def newHash (pairs : List (Value × Value)) : Run Value := do
  let table ← alloc (·.insertPairs .empty pairs)
  return .hash (← alloc (·.newTable table))

/-- A method made while the program runs, different from all others. -/
def newNative (n : Native) : Run Callable := fun w =>
  .ok (.native w.natives n) { w with natives := w.natives + 1 }

/-! ## Output and random numbers -/

/-- Give a text to the writer. What it refuses is an error of the host. -/
def write (text : String) : Run Unit := fun w =>
  let given := text :: w.given
  match w.host.write w.given text with
  | none => .ok () { w with given, output := w.output ++ text }
  | some (taken, message) =>
    .error (.failed { fault := .external message }) { w with given, output := w.output ++ taken }

theorem write_cases (text : String) (w : World) :
    write text w = .ok () { w with given := text :: w.given, output := w.output ++ text } ∨
      ∃ taken message, write text w = .error (.failed { fault := .external message })
        { w with given := text :: w.given, output := w.output ++ taken } := by
  unfold write
  cases w.host.write w.given text with
  | none => exact .inl rfl
  | some refusal => exact .inr ⟨refusal.1, refusal.2, rfl⟩

/-- Sixty-four random bits. -/
def randomBits : Run UInt64 := fun w => .ok (w.host.draw w.drawn) { w with drawn := w.drawn + 1 }

/-- A random float from zero up to, but not including, one. -/
def randomFloat : Run Float := do
  let bits ← randomBits
  return (bits >>> 11).toFloat / 9007199254740992.0

/-- A random number below a bound that is not zero. -/
def randomBelow (bound : Nat) : Run Nat := do
  let bits ← randomBits
  return bits.toNat % bound

/-! ## Guards -/

/-- Make the text of a collection, or the short text `again` if that is already being made. -/
def guardInspecting (id : Identity) (again : α) (x : Run α) : Run α := fun w =>
  if w.inspecting.contains id then .ok again w
  else
    match x { w with inspecting := id :: w.inspecting } with
    | .ok s w => .ok s { w with inspecting := w.inspecting.tail }
    | .error e w => .error e { w with inspecting := w.inspecting.tail }

/-- Compare two collections, which are taken as equal if they are already being compared. -/
def guardComparing (pair : Identity × Identity) (x : Run Bool) : Run Bool := fun w =>
  if w.comparing.contains pair then .ok true w
  else
    match x { w with comparing := pair :: w.comparing } with
    | .ok b w => .ok b { w with comparing := w.comparing.tail }
    | .error e w => .error e { w with comparing := w.comparing.tail }

/-! ## Faults that many methods share -/

/-- The wrong number of arguments came. -/
def wrongCount (args : List Value) (least : Nat) (greatest : Option Nat) : Run α :=
  fail (.argumentCount args.length least greatest)

/-- A value has the wrong shape. -/
def wrongShape (v : Value) (wanted : Shape) : Run α := fail (.notConvertible v.shape wanted)

/-- A block that has to be there. -/
def needBlock (block : Option Callable) : Run Callable := ofOption .noBlock block

/-- A value that has to be a class or module. -/
def needClass (v : Value) : Run ClassRef := do
  match v with
  | .klass c => pure c
  | v => fail (.notAClass (← readingSome (·.describe v)))

/-- The one argument. -/
def single : List Value → Run Value
  | [v] => pure v
  | args => wrongCount args 1 (some 1)

end Run

end Spinel
