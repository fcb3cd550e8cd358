import Spinel.Value

/-!
# Hash keys

What a hash files its entries under. Two values with the same key are the same to a hash.
-/

namespace Spinel

/-- What a hash files a value under. Values are told apart by their contents, cells other than texts
and arrays by what they are. -/
inductive HashKey where
  | nil
  | bool (value : Bool)
  | int (value : Int64)
  | float (bits : UInt64)
  | str (text : String)
  | symbol (name : String)
  | array (items : List HashKey)
  | range (low high : Int64)
  | identity (of : Identity)

namespace HashKey

mutual

/-- Whether two keys are the same. -/
def same : HashKey → HashKey → Bool
  | .nil, .nil => true
  | .bool a, .bool b => a == b
  | .int a, .int b => a == b
  | .float a, .float b => a == b
  | .str a, .str b => a == b
  | .symbol a, .symbol b => a == b
  | .array xs, .array ys => sameAll xs ys
  | .range a b, .range c d => a == c && b == d
  | .identity a, .identity b => a == b
  | _, _ => false

/-- Whether two lists of keys are the same. -/
def sameAll : List HashKey → List HashKey → Bool
  | [], [] => true
  | x :: xs, y :: ys => same x y && sameAll xs ys
  | _, _ => false

end

instance : BEq HashKey := ⟨same⟩

mutual

theorem eq_of_same : ∀ {x y : HashKey}, same x y = true → x = y
  | x, y, h => by
    cases x <;> cases y <;> simp only [same, Bool.false_eq_true, Bool.and_eq_true, beq_iff_eq] at h
    case nil.nil => rfl
    case array.array xs ys => rw [eq_of_sameAll h]
    case range.range => rw [h.1, h.2]
    all_goals rw [h]

theorem eq_of_sameAll : ∀ {xs ys : List HashKey}, sameAll xs ys = true → xs = ys
  | [], [], _ => rfl
  | [], _ :: _, h => by simp [sameAll] at h
  | _ :: _, [], h => by simp [sameAll] at h
  | x :: xs, y :: ys, h => by
    simp only [sameAll, Bool.and_eq_true] at h
    rw [eq_of_same h.1, eq_of_sameAll h.2]

end

mutual

theorem same_self : ∀ x : HashKey, same x x = true
  | .nil => by simp [same]
  | .bool _ => by simp [same]
  | .int _ => by simp [same]
  | .float _ => by simp [same]
  | .str _ => by simp [same]
  | .symbol _ => by simp [same]
  | .array xs => by simp [same, sameAll_self xs]
  | .range _ _ => by simp [same]
  | .identity _ => by simp [same]

theorem sameAll_self : ∀ xs : List HashKey, sameAll xs xs = true
  | [] => by simp [sameAll]
  | x :: xs => by simp [sameAll, same_self x, sameAll_self xs]

end

instance : LawfulBEq HashKey where
  eq_of_beq := eq_of_same
  rfl := same_self _

end HashKey

end Spinel
