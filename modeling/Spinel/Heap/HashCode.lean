import Spinel.Heap.Keys

/-!
# Hash codes

A number for each key, the same for the same keys and very likely different for different ones.
-/

namespace Spinel

/-- Stir a number into a code. -/
def stir (code : UInt64) (n : Nat) : UInt64 :=
  let x := (code ^^^ UInt64.ofNat n) * 0x100000001B3
  (x ^^^ (x >>> 29)) * 0xBF58476D1CE4E5B9

/-- Stir a text into a code. -/
def stirText (code : UInt64) (s : String) : UInt64 :=
  s.toList.foldl (fun code c => stir code c.toNat) (stir code s.length)

/-- Stir what a cell or callable is into a code. -/
def Identity.stir (code : UInt64) : Identity → UInt64
  | .list r => Spinel.stir (Spinel.stir code 1) r.index
  | .table r => Spinel.stir (Spinel.stir code 2) r.index
  | .klass r => Spinel.stir (Spinel.stir code 3) r.index
  | .object r => Spinel.stir (Spinel.stir code 4) r.index
  | .method site scope =>
    Spinel.stir (Spinel.stir (Spinel.stir (Spinel.stir code 5) site.source.serial) site.offset)
      scope.index
  | .block site scope =>
    Spinel.stir (Spinel.stir (Spinel.stir (Spinel.stir code 6) site.source.serial) site.offset)
      scope.index
  | .builtin _ => Spinel.stir code 7
  | .native serial => Spinel.stir (Spinel.stir code 8) serial

namespace HashKey

mutual

/-- Stir a key into a code. -/
def stir (code : UInt64) : HashKey → UInt64
  | .nil => Spinel.stir code 1
  | .bool b => Spinel.stir (Spinel.stir code 2) b.toNat
  | .int x => Spinel.stir (Spinel.stir code 3) x.toUInt64.toNat
  | .float bits => Spinel.stir (Spinel.stir code 4) bits.toNat
  | .str s => stirText (Spinel.stir code 5) s
  | .symbol s => stirText (Spinel.stir code 6) s
  | .array items => stirAll (Spinel.stir code 7) items
  | .range low high =>
    Spinel.stir (Spinel.stir (Spinel.stir code 8) low.toUInt64.toNat) high.toUInt64.toNat
  | .identity id => id.stir (Spinel.stir code 9)

/-- Stir a list of keys into a code. -/
def stirAll (code : UInt64) : List HashKey → UInt64
  | [] => Spinel.stir code 10
  | k :: rest => stirAll (stir code k) rest

end

/-- The code of a key. -/
def code (k : HashKey) : Int64 := (k.stir 0xCBF29CE484222325).toInt64

end HashKey

/-- The number that `hash` gives for a value. -/
def Heap.hashCode (h : Heap) (v : Value) : Int64 := (h.key v).code

end Spinel
