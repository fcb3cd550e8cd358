import Spinel.Tree

/-!
# Trees as the grammar makes them

The nodes that a node is made of are its children (`Form.children`). In a tree that was read from a
text, each class is defined under a path that ends in a plain name, and each assignment is to
something that can be assigned to (`Node.Sound`).
-/

namespace Spinel

/-! ## Children -/

def BlockArg.children : BlockArg → List Node
  | .none => []
  | .literal block => block.body
  | .value node => [node]

/-- The nodes that a form is made of. -/
def Form.children : Form → List Node
  | .array items => items
  | .hash pairs => pairs.flatMap fun p => [p.1, p.2]
  | .range low high _ => [low, high]
  | .scoped scope _ => [scope]
  | .call receiver _ args block => receiver.toList ++ args ++ block.children
  | .index receiver args => receiver :: args
  | .both left right | .either left right => [left, right]
  | .assign target value => [target, value]
  | .branch condition whenTrue whenFalse => condition :: (whenTrue ++ whenFalse)
  | .loop _ condition body => condition :: body
  | .forEach iterable block => iterable :: block.body
  | .define target method => target.toList ++ method.body
  | .openClass path superclass body => path :: (superclass.toList ++ body)
  | .openModule path body => path :: body
  | .lambda block => block.body
  | .sequence body => body
  | .yieldTo args | .superCall args => args
  | .returnWith value | .nextWith value => value.toList
  | .nil | .boolean _ | .selfRef | .integer _ | .float _ | .str _ | .symbol _ | .localVar _ |
    .instanceVar _ | .classVar _ | .globalVar _ | .constant _ | .breakOut | .redo | .retry => []

/-! ## Sound trees -/

/-- A name without colons, which a path of names joined by double colons can be cut into again. -/
def IsPlainName (name : String) : Prop := ':' ∉ name.toList

/-- A path to a class that ends in a plain name. -/
def Form.IsPlainPath : Form → Prop
  | .constant name | .scoped _ name => IsPlainName name
  | _ => False

/-- Whether a node may stand behind `class` or `module`. -/
def Form.isClassPath : Form → Bool
  | .constant _ | .scoped .. => true
  | _ => false

theorem Form.IsPlainPath.isClassPath {form : Form} (h : form.IsPlainPath) :
    form.isClassPath = true := by
  unfold IsPlainPath at h
  split at h
  · rfl
  · rfl
  · exact h.elim

/-- A form is as the grammar makes it, whatever its children are. -/
def Form.Sound : Form → Prop
  | .openClass path _ _ | .openModule path _ => path.form.IsPlainPath
  | .assign target _ => target.form.isAssignable = true
  | _ => True

/-- All forms in a tree are as the grammar makes them. -/
inductive Node.Sound : Node → Prop
  | mk {span : Span} {form : Form} (sound : form.Sound) (children : ∀ c ∈ form.children, c.Sound) :
      Sound ⟨span, form⟩

namespace Node.Sound

variable {node : Node}

theorem form (h : node.Sound) : node.form.Sound := by
  cases h with
  | mk sound _ => exact sound

theorem child (h : node.Sound) : ∀ c ∈ node.form.children, c.Sound := by
  cases h with
  | mk _ children => exact children

end Node.Sound

end Spinel
