/-!
# Indices and slices

Where an index or a stretch of indices lies in a sequence. Negative indices count from the end.
-/

namespace Spinel.Slice

/-- A negative index counts from the end. -/
def fromEnd (i : Int) (length : Nat) : Int := if i < 0 then i + length else i

/-- The place of an index in a sequence, if it has one. -/
def index? (i : Int) (length : Nat) : Option Nat :=
  let i := fromEnd i length
  if 0 ≤ i ∧ i < length then some i.toNat else none

/-- The places from the first up to, but not including, the second, for a start and a count.
Starting at the very end gives an empty stretch, starting beyond it none. -/
def slice? (start count : Int) (length : Nat) : Option (Nat × Nat) :=
  let start := fromEnd start length
  if start < 0 ∨ length < start ∨ count < 0 then none
  else some (start.toNat, (min (start + count) length).toNat)

/-- The same for the indices from `low` to `high`. A start that counts from the end and lies before
the beginning is taken from the end once more. -/
def between? (low high : Int) (length : Nat) : Option (Nat × Nat) :=
  let low := fromEnd low length
  let high := fromEnd high length
  slice? low (max (high - low + 1) 0) length

end Spinel.Slice
