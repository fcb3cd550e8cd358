import Spinel.Grammar.Program
import Spinel.Proofs.Source.Availability

/-!
# Trees moved to another place

A text that is put behind whole lines of another one is read there as it is read alone, but for its
places: offsets and lines grow, columns do not. A `Shift` says by how much, and `Shift.move` is what
it does to places, tokens and trees. Moving by nothing changes nothing (`movedAll_zero`).
-/

namespace Spinel

/-- How far a text was moved: by so many characters, which have so many line feeds. -/
structure Shift where
  offset : Nat
  line : Nat
deriving DecidableEq

/-- How far a text is moved that stands behind another one and a line feed. -/
def Shift.behind (text : String) : Shift := ⟨text.length + 1, text.toList.count '\n' + 1⟩

/-- Things that have places in a text. -/
class Moves (α : Type) where
  moveBy : Shift → α → α

/-- The same thing in the text that was moved. -/
def Shift.move {α : Type} [Moves α] (d : Shift) (a : α) : α := Moves.moveBy d a

/-! ## Places -/

instance : Moves Position := ⟨fun d p => ⟨p.offset + d.offset, p.line + .ofNat d.line, p.column⟩⟩

instance : Moves Span := ⟨fun d s => ⟨d.move s.start, s.length⟩⟩

instance : Moves Token := ⟨fun d t => { t with span := d.move t.span }⟩

instance : Moves Site := ⟨fun d s => { s with offset := s.offset + d.offset }⟩

instance : Moves Params := ⟨fun _ p => p⟩

instance : Moves String := ⟨fun _ s => s⟩

instance : Moves Bool := ⟨fun _ b => b⟩

instance {α β : Type} [Moves α] [Moves β] : Moves (α × β) :=
  ⟨fun d p => (d.move p.1, d.move p.2)⟩

instance (priority := low) {α : Type} [Moves α] : Moves (Option α) := ⟨fun d o => o.map d.move⟩

namespace Shift

variable (d : Shift)

theorem move_next (p : Position) (c : Char) : (d.move p).next c = d.move (p.next c) := by
  unfold Position.next
  split
  · change Position.mk (p.offset + d.offset + 1) (p.line + .ofNat d.line + 1) 0 = _
    rw [Nat.add_right_comm, UInt32.add_assoc, UInt32.add_comm (.ofNat d.line),
      ← UInt32.add_assoc]
    rfl
  · change Position.mk (p.offset + d.offset + 1) (p.line + .ofNat d.line) (p.column + 1) = _
    rw [Nat.add_right_comm]
    rfl

theorem move_advance (p : Position) (cs : List Char) :
    (d.move p).advance cs = d.move (p.advance cs) := by
  induction cs generalizing p with
  | nil => rfl
  | cons c cs ih => rw [Position.advance_cons, move_next, ih, Position.advance_cons]

@[simp] theorem move_stop (s : Span) : (d.move s).stop = s.stop + d.offset := by
  simp only [move, Moves.moveBy, Span.stop]
  omega

theorem move_join (a b : Span) : (d.move a).join (d.move b) = d.move (a.join b) := by
  simp only [Span.join, move_stop]
  simp only [move, Moves.moveBy, Span.mk.injEq, true_and]
  omega

end Shift

/-! ## Trees -/

mutual

def Node.moved (d : Shift) : Node → Node
  | ⟨span, form⟩ => ⟨d.move span, form.moved d⟩

def Form.moved (d : Shift) : Form → Form
  | .nil => .nil
  | .boolean value => .boolean value
  | .selfRef => .selfRef
  | .integer value => .integer value
  | .float value => .float value
  | .str text => .str text
  | .symbol name => .symbol name
  | .array items => .array (movedAll d items)
  | .hash pairs => .hash (movedPairs d pairs)
  | .range low high exclusive => .range (low.moved d) (high.moved d) exclusive
  | .localVar name => .localVar name
  | .instanceVar name => .instanceVar name
  | .classVar name => .classVar name
  | .globalVar name => .globalVar name
  | .constant name => .constant name
  | .scoped scope name => .scoped (scope.moved d) name
  | .call receiver name args block =>
    .call (movedOption d receiver) name (movedAll d args) (block.moved d)
  | .index receiver args => .index (receiver.moved d) (movedAll d args)
  | .both left right => .both (left.moved d) (right.moved d)
  | .either left right => .either (left.moved d) (right.moved d)
  | .assign target value => .assign (target.moved d) (value.moved d)
  | .branch condition whenTrue whenFalse =>
    .branch (condition.moved d) (movedAll d whenTrue) (movedAll d whenFalse)
  | .loop wanted condition body => .loop wanted (condition.moved d) (movedAll d body)
  | .forEach iterable block => .forEach (iterable.moved d) (block.moved d)
  | .define target method => .define (movedOption d target) (method.moved d)
  | .openClass path superclass body =>
    .openClass (path.moved d) (movedOption d superclass) (movedAll d body)
  | .openModule path body => .openModule (path.moved d) (movedAll d body)
  | .lambda block => .lambda (block.moved d)
  | .sequence body => .sequence (movedAll d body)
  | .yieldTo args => .yieldTo (movedAll d args)
  | .superCall args => .superCall (movedAll d args)
  | .returnWith value => .returnWith (movedOption d value)
  | .nextWith value => .nextWith (movedOption d value)
  | .breakOut => .breakOut
  | .redo => .redo
  | .retry => .retry

def BlockArg.moved (d : Shift) : BlockArg → BlockArg
  | .none => .none
  | .literal block => .literal (block.moved d)
  | .value node => .value (node.moved d)

def Block.moved (d : Shift) : Block → Block
  | ⟨site, params, body⟩ => ⟨d.move site, params, movedAll d body⟩

def Method.moved (d : Shift) : Method → Method
  | ⟨site, name, params, body⟩ => ⟨d.move site, name, params, movedAll d body⟩

def movedAll (d : Shift) : List Node → List Node
  | [] => []
  | node :: rest => node.moved d :: movedAll d rest

def movedPairs (d : Shift) : List (Node × Node) → List (Node × Node)
  | [] => []
  | pair :: rest => movedPair d pair :: movedPairs d rest

def movedPair (d : Shift) : Node × Node → Node × Node
  | (key, value) => (key.moved d, value.moved d)

def movedOption (d : Shift) : Option Node → Option Node
  | none => none
  | some node => some (node.moved d)

end

instance : Moves Node := ⟨Node.moved⟩

instance : Moves Form := ⟨Form.moved⟩

instance : Moves BlockArg := ⟨BlockArg.moved⟩

instance : Moves (List Node) := ⟨movedAll⟩

instance : Moves (List (Node × Node)) := ⟨movedPairs⟩

instance : Moves (Option Node) := ⟨movedOption⟩

instance : Moves Grammar.Args :=
  ⟨fun d a => ⟨d.move a.positional, d.move a.pairs, d.move a.block⟩⟩

instance : Moves Grammar.Rule := ⟨fun d rule =>
  match rule with
  | .conditional start => .conditional (d.move start)
  | rule => rule⟩

@[simp] theorem Shift.span_move (d : Shift) (node : Node) :
    (d.move node).span = d.move node.span := by
  cases node
  rfl

@[simp] theorem Shift.form_move (d : Shift) (node : Node) :
    (d.move node).form = d.move node.form := by
  cases node
  rfl

theorem Shift.move_joined (d : Shift) (left : Node) (span : Span) (form : Form) :
    d.move (⟨left.span.join span, form⟩ : Node) =
      ⟨(d.move left).span.join (d.move span), d.move form⟩ := by
  rw [span_move, move_join]
  rfl

theorem Shift.move_joined_nodes (d : Shift) (left right : Node) (form : Form) :
    d.move (⟨left.span.join right.span, form⟩ : Node) =
      ⟨(d.move left).span.join (d.move right).span, d.move form⟩ := by
  rw [span_move d right]
  exact move_joined d left right.span form

theorem movedAll_eq_map (d : Shift) (nodes : List Node) :
    movedAll d nodes = nodes.map (Node.moved d) := by
  induction nodes with
  | nil => rfl
  | cons node rest ih => rw [movedAll, ih, List.map_cons]

theorem Shift.move_append (d : Shift) (a b : List Node) :
    d.move (a ++ b) = d.move a ++ d.move b := by
  simp only [Shift.move, Moves.moveBy, movedAll_eq_map, List.map_append]

theorem movedPairs_eq_map (d : Shift) (pairs : List (Node × Node)) :
    movedPairs d pairs = pairs.map (movedPair d) := by
  induction pairs with
  | nil => rfl
  | cons pair rest ih => rw [movedPairs, ih, List.map_cons]

/-! ## Moving by nothing -/

/-- The shift of a text that stays where it is. -/
def Shift.zero : Shift := ⟨0, 0⟩

theorem Shift.zero_move (span : Span) : zero.move span = span := by
  simp [move, Moves.moveBy, zero]

mutual

theorem Node.moved_zero : ∀ node : Node, node.moved .zero = node
  | ⟨span, form⟩ => by rw [Node.moved, form.moved_zero, Shift.zero_move]

theorem Form.moved_zero : ∀ form : Form, form.moved .zero = form
  | .nil | .boolean _ | .selfRef | .integer _ | .float _ | .str _ | .symbol _ | .localVar _ |
    .instanceVar _ | .classVar _ | .globalVar _ | .constant _ | .breakOut | .redo | .retry => rfl
  | .array items => by rw [Form.moved, movedAll_zero items]
  | .hash pairs => by rw [Form.moved, movedPairs_zero pairs]
  | .range low high exclusive => by rw [Form.moved, low.moved_zero, high.moved_zero]
  | .scoped scope name => by rw [Form.moved, scope.moved_zero]
  | .call receiver name args block => by
    rw [Form.moved, movedOption_zero receiver, movedAll_zero args, block.moved_zero]
  | .index receiver args => by rw [Form.moved, receiver.moved_zero, movedAll_zero args]
  | .both left right => by rw [Form.moved, left.moved_zero, right.moved_zero]
  | .either left right => by rw [Form.moved, left.moved_zero, right.moved_zero]
  | .assign target value => by rw [Form.moved, target.moved_zero, value.moved_zero]
  | .branch condition whenTrue whenFalse => by
    rw [Form.moved, condition.moved_zero, movedAll_zero whenTrue, movedAll_zero whenFalse]
  | .loop wanted condition body => by
    rw [Form.moved, condition.moved_zero, movedAll_zero body]
  | .forEach iterable block => by rw [Form.moved, iterable.moved_zero, block.moved_zero]
  | .define target method => by rw [Form.moved, movedOption_zero target, method.moved_zero]
  | .openClass path superclass body => by
    rw [Form.moved, path.moved_zero, movedOption_zero superclass, movedAll_zero body]
  | .openModule path body => by rw [Form.moved, path.moved_zero, movedAll_zero body]
  | .lambda block => by rw [Form.moved, block.moved_zero]
  | .sequence body => by rw [Form.moved, movedAll_zero body]
  | .yieldTo args => by rw [Form.moved, movedAll_zero args]
  | .superCall args => by rw [Form.moved, movedAll_zero args]
  | .returnWith value => by rw [Form.moved, movedOption_zero value]
  | .nextWith value => by rw [Form.moved, movedOption_zero value]

theorem BlockArg.moved_zero : ∀ block : BlockArg, block.moved .zero = block
  | .none => rfl
  | .literal block => by rw [BlockArg.moved, block.moved_zero]
  | .value node => by rw [BlockArg.moved, node.moved_zero]

theorem Block.moved_zero : ∀ block : Block, block.moved .zero = block
  | ⟨site, params, body⟩ => by rw [Block.moved, movedAll_zero body]; rfl

theorem Method.moved_zero : ∀ method : Method, method.moved .zero = method
  | ⟨site, name, params, body⟩ => by rw [Method.moved, movedAll_zero body]; rfl

theorem movedAll_zero : ∀ nodes : List Node, movedAll .zero nodes = nodes
  | [] => rfl
  | node :: rest => by rw [movedAll, node.moved_zero, movedAll_zero rest]

theorem movedPairs_zero : ∀ pairs : List (Node × Node), movedPairs .zero pairs = pairs
  | [] => rfl
  | pair :: rest => by rw [movedPairs, movedPair_zero pair, movedPairs_zero rest]

theorem movedPair_zero : ∀ pair : Node × Node, movedPair .zero pair = pair
  | (key, value) => by rw [movedPair, key.moved_zero, value.moved_zero]

theorem movedOption_zero : ∀ option : Option Node, movedOption .zero option = option
  | none => rfl
  | some node => by rw [movedOption, node.moved_zero]

end

end Spinel
