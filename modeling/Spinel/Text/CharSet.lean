/-!
# Sets of characters

A set of characters as the lengths of the runs in which its members and the others follow each other
from the first code point on: first how many are none, then how many are members, and so on.
-/

namespace Spinel

/-- A set of characters, by the lengths of its runs. -/
structure CharSet where
  runs : List Nat

namespace CharSet

/-- Whether the code point `n` places after the start of a run is a member, if those of the run are
(`inside`). -/
def memberFrom (n : Nat) : (inside : Bool) → List Nat → Bool
  | inside, [] => inside
  | inside, run :: rest => if n < run then inside else memberFrom (n - run) (!inside) rest

/-- Whether a character is in the set. -/
def contains (s : CharSet) (c : Char) : Bool := memberFrom c.toNat false s.runs

end CharSet

end Spinel
