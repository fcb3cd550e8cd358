import Spinel.HashKey
import Spinel.Number.Power
import Spinel.OrderedMap

/-!
# The heap

What programs share and change: texts, arrays, hashes, objects, classes and scopes, each kind in a
store of its own. Cells are only added, so a reference stays good for ever.
-/

namespace Spinel

/-! ## Stores -/

/-- Cells of one kind, numbered in the order in which they were added. -/
structure Store (α : Type) where
  cells : Array α := #[]

namespace Store

variable {α : Type}

instance : Inhabited (Store α) := ⟨{}⟩

def size (s : Store α) : Nat := s.cells.size

/-- The contents of a cell. -/
def get [Inhabited α] (s : Store α) (i : Nat) : α := s.cells.getD i default

/-- Replace the contents of a cell by a function of them. -/
def modify (s : Store α) (i : Nat) (f : α → α) : Store α := ⟨s.cells.modify i f⟩

/-- Add a cell, whose number is the size before. -/
def push (s : Store α) (a : α) : Store α := ⟨s.cells.push a⟩

@[simp] theorem size_push (s : Store α) (a : α) : (s.push a).size = s.size + 1 := by
  simp [push, size]

@[simp] theorem size_modify (s : Store α) (i : Nat) (f : α → α) : (s.modify i f).size = s.size := by
  simp [modify, size]

variable [Inhabited α]

/-- A new cell holds what it was made with. -/
@[simp] theorem get_push_size (s : Store α) (a : α) : (s.push a).get s.size = a := by
  simp [push, size, get]

/-- Adding a cell leaves the others as they are. -/
theorem get_push_of_lt {s : Store α} {i : Nat} (h : i < s.size) (a : α) :
    (s.push a).get i = s.get i := by
  have h' : i < s.cells.size := h
  simp [push, get, Array.getElem?_push, Nat.ne_of_lt h']

/-- A changed cell holds what the change made of it. -/
theorem get_modify_self {s : Store α} {i : Nat} (h : i < s.size) (f : α → α) :
    (s.modify i f).get i = f (s.get i) := by
  have h' : i < s.cells.size := h
  simp [modify, get, h', Array.getElem_modify]

/-- Changing a cell leaves the others as they are. -/
theorem get_modify_of_ne {s : Store α} {i j : Nat} (h : i ≠ j) (f : α → α) :
    (s.modify j f).get i = s.get i := by
  simp [modify, get, Array.getElem?_modify, Ne.symm h]

end Store

/-! ## Cells -/

/-- An entry of a hash: the key as a value, and the value under it. -/
structure Entry where
  key : Value
  value : Value

/-- A class or module. -/
structure Class where
  name : String
  isModule : Bool := false
  /-- Whether it holds the methods of one object or class alone. -/
  isSingleton : Bool := false
  superclass : Option ClassRef := none
  /-- The class or module inside which it was defined. -/
  parent : Option ClassRef := none
  methods : OrderedMap String Callable := .empty
  constants : OrderedMap String Value := .empty
  /-- Variables of the class itself, both `@x` and `@@x`. -/
  slots : OrderedMap String Value := .empty
  singleton : Option ClassRef := none

instance : Inhabited Class := ⟨{ name := "" }⟩

/-- An object. -/
structure Instance where
  klass : ClassRef
  slots : OrderedMap String Value := .empty
  singleton : Option ClassRef := none
  /-- What the host attached to it. -/
  data : Option Int64 := none
  /-- The built-in value behind an instance of a subclass of a value class. -/
  base : Option Value := none

instance : Inhabited Instance := ⟨{ klass := default }⟩

/-- How assignment to a name that a scope does not have behaves. -/
inductive ScopeKind where
  /-- It makes a new variable. -/
  | plain
  /-- It changes the nearest outer variable of that name, if there is one. -/
  | block
deriving DecidableEq

/-- The variables of a piece of running program, and what surrounds it. -/
structure Scope where
  locals : OrderedMap String Value := .empty
  parent : Option ScopeRef := none
  /-- What `self` is. -/
  receiver : Value
  /-- The class or module being defined. -/
  module : Option ClassRef := none
  /-- What `yield` calls. -/
  block : Option Callable := none
  kind : ScopeKind := .plain

instance : Inhabited Scope := ⟨{ receiver := .nil }⟩

/-- The entries of a hash. -/
abbrev Table := OrderedMap HashKey Entry

/-! ## The heap -/

/-- All cells of a session. -/
structure Heap where
  texts : Store String := {}
  lists : Store (Array Value) := {}
  tables : Store Table := {}
  objects : Store Instance := {}
  classes : Store Class := {}
  scopes : Store Scope := {}
  /-- The most cells or bytes that are given to one value. -/
  limit : Nat := twoPow 40
deriving Inhabited

namespace Heap

def text (h : Heap) (r : TextRef) : String := h.texts.get r.index

def list (h : Heap) (r : ListRef) : Array Value := h.lists.get r.index

def table (h : Heap) (r : TableRef) : Table := h.tables.get r.index

def object (h : Heap) (r : ObjectRef) : Instance := h.objects.get r.index

def klass (h : Heap) (r : ClassRef) : Class := h.classes.get r.index

def scope (h : Heap) (r : ScopeRef) : Scope := h.scopes.get r.index

def modifyText (h : Heap) (r : TextRef) (f : String → String) : Heap :=
  { h with texts := h.texts.modify r.index f }

def modifyList (h : Heap) (r : ListRef) (f : Array Value → Array Value) : Heap :=
  { h with lists := h.lists.modify r.index f }

def modifyTable (h : Heap) (r : TableRef) (f : Table → Table) : Heap :=
  { h with tables := h.tables.modify r.index f }

def modifyObject (h : Heap) (r : ObjectRef) (f : Instance → Instance) : Heap :=
  { h with objects := h.objects.modify r.index f }

def modifyClass (h : Heap) (r : ClassRef) (f : Class → Class) : Heap :=
  { h with classes := h.classes.modify r.index f }

def modifyScope (h : Heap) (r : ScopeRef) (f : Scope → Scope) : Heap :=
  { h with scopes := h.scopes.modify r.index f }

def newText (h : Heap) (s : String) : TextRef × Heap :=
  (⟨h.texts.size⟩, { h with texts := h.texts.push s })

def newList (h : Heap) (items : Array Value) : ListRef × Heap :=
  (⟨h.lists.size⟩, { h with lists := h.lists.push items })

def newTable (h : Heap) (t : Table) : TableRef × Heap :=
  (⟨h.tables.size⟩, { h with tables := h.tables.push t })

def newObject (h : Heap) (o : Instance) : ObjectRef × Heap :=
  (⟨h.objects.size⟩, { h with objects := h.objects.push o })

def newClass (h : Heap) (c : Class) : ClassRef × Heap :=
  (⟨h.classes.size⟩, { h with classes := h.classes.push c })

def newScope (h : Heap) (s : Scope) : ScopeRef × Heap :=
  (⟨h.scopes.size⟩, { h with scopes := h.scopes.push s })

/-! ## What values stand for -/

/-- The built-in value behind an object, or the value itself. -/
def representation (h : Heap) : Value → Value
  | .object r => (h.object r).base.getD (.object r)
  | v => v

def textRef? (h : Heap) (v : Value) : Option TextRef :=
  match h.representation v with
  | .str r => some r
  | _ => none

/-- The contents of a string. -/
def text? (h : Heap) (v : Value) : Option String := (h.textRef? v).map h.text

def listRef? (h : Heap) (v : Value) : Option ListRef :=
  match h.representation v with
  | .array r => some r
  | _ => none

def tableRef? (h : Heap) (v : Value) : Option TableRef :=
  match h.representation v with
  | .hash r => some r
  | _ => none

def range? (h : Heap) (v : Value) : Option (Int64 × Int64) :=
  match h.representation v with
  | .range low high => some (low, high)
  | _ => none

def proc? (h : Heap) (v : Value) : Option Callable :=
  match h.representation v with
  | .proc c => some c
  | _ => none

/-- A symbol or a plain string, as a name. -/
def name? (h : Heap) : Value → Option String
  | .symbol s => some s
  | .str r => some (h.text r)
  | _ => none

end Heap

end Spinel
