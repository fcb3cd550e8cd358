/-!
# Values written down

A value as a host spells it out, before it is built on a heap. Parts of it can name what a session
already has.
-/

namespace Spinel

/-- How to build a value. -/
inductive Literal where
  | nil
  | bool (value : Bool)
  | int (value : Int64)
  | float (value : Float)
  | str (text : String)
  | symbol (name : String)
  | range (low high : Int64)
  | array (items : List Literal)
  /-- Pairs of keys and values, of which later ones win. -/
  | hash (pairs : List (Literal × Literal))
  /-- What a top-level variable holds. -/
  | global (name : String)
  /-- The class that a path of constants leads to. -/
  | constant (path : List String)

end Spinel
