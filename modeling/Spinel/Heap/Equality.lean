import Spinel.Heap.Keys

/-!
# Equality of values

Two values are the same if nothing can tell them apart, and equal if they have the same structure.
Pairs of collections that are being compared further up count as equal, so that comparison ends on
collections that contain themselves.
-/

namespace Spinel.Heap

/-- Equality of values within the comparison of the pairs `comparing`. There is no answer if pairs
of collections are met inside one another more than `n` deep. -/
def equalWithin (h : Heap) (n : Nat) (comparing : List (Identity × Identity)) (v w : Value) :
    Option Bool :=
  -- comparison of what is in the pair
  let inside (pair : Identity × Identity) : Value → Value → Option Bool :=
    match n with
    | 0 => fun _ _ => none
    | n + 1 => h.equalWithin n (pair :: comparing)
  match v, w with
  | .nil, .nil => some true
  | .bool a, .bool b => some (a == b)
  | .int a, .int b => some (a == b)
  | .float a, .float b => some (a == b)
  | .int a, .float b => some (a.toFloat == b)
  | .float a, .int b => some (a == b.toFloat)
  | .symbol a, .symbol b => some (a == b)
  | .str a, .str b => some (a == b || h.text a == h.text b)
  | .range a b, .range c d => some (a == c && b == d)
  | .array a, .array b =>
    let pair := (Identity.list a, Identity.list b)
    if a == b || comparing.contains pair then some true
    else if (h.list a).size != (h.list b).size then some false
    else ((h.list a).toList.zip (h.list b).toList).allM fun (x, y) => inside pair x y
  | .hash a, .hash b =>
    let pair := (Identity.table a, Identity.table b)
    if a == b || comparing.contains pair then some true
    else if (h.table a).size != (h.table b).size then some false
    else
      (h.table a).entries.allM fun (key, entry) =>
        match (h.table b).get? key with
        | none => some false
        | some other => inside pair entry.value other.value
  | .klass a, .klass b => some (a == b)
  | .object a, .object b => some (a == b)
  | .proc a, .proc b => some (a.identity == b.identity)
  | _, _ => some false

/-- A bound on the pairs of collections that can be compared within one another. -/
def pairCount (h : Heap) : Nat := h.lists.size * h.lists.size + h.tables.size * h.tables.size

/-- Equality by structure. Integers equal floats of the same value. Within the bound on pairs there
always is an answer. -/
def equal (h : Heap) (v w : Value) : Bool := (h.equalWithin h.pairCount [] v w).getD false

/-- Equality by structure, where an integer and a float are never equal. -/
def strictlyEqual (h : Heap) (v w : Value) : Bool :=
  match v, w with
  | .int _, .float _ | .float _, .int _ => false
  | _, _ => h.equal v w

/-- Whether two values are one. Immediate ones are if they are equal, floats if they have the same
bits. -/
def same (h : Heap) (v w : Value) : Bool :=
  match v, w with
  | .str a, .str b => a == b
  | .array a, .array b => a == b
  | .hash a, .hash b => a == b
  | .float a, .float b => a.toBits == b.toBits
  | _, _ => h.equal v w

end Spinel.Heap
