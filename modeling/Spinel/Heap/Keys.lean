import Spinel.Heap

/-!
# Keys of values

The hash key of a value on a heap. An array that contains itself stands for its inner occurrences
by what it is, so the key is finite.
-/

namespace Spinel.Heap

/-- The key of a value inside the arrays `visiting`. There is none if other arrays are met inside
one another more than `n` deep. -/
def keyWithin (h : Heap) (n : Nat) (visiting : List ListRef) (v : Value) : Option HashKey :=
  match v with
  | .nil => some .nil
  | .bool b => some (.bool b)
  | .int x => some (.int x)
  | .float x => some (.float x.toBits)
  | .symbol s => some (.symbol s)
  | .str r => some (.str (h.text r))
  | .array r =>
    if visiting.contains r then some (.identity (.list r))
    else
      let inside : Value → Option HashKey :=
        match n with
        | 0 => fun _ => none
        | n + 1 => h.keyWithin n (r :: visiting)
      ((h.list r).toList.mapM inside).map .array
  | .range low high => some (.range low high)
  | .hash r => some (.identity (.table r))
  | .klass r => some (.identity (.klass r))
  | .object r => some (.identity (.object r))
  | .proc c => some (.identity c.identity)

/-- What a hash files a value under. Arrays are never met inside one another more often than there
are any. -/
def key (h : Heap) (v : Value) : HashKey := (h.keyWithin h.lists.size [] v).getD .nil

theorem key_str (h : Heap) (c : TextRef) : h.key (.str c) = .str (h.text c) := by
  unfold key keyWithin
  rfl

/-- The value that a hash keeps as the key of a new entry. A string is copied, so that changing it
later does not change the hash. -/
def entryKey (h : Heap) : Value → Value × Heap
  | .str r =>
    let (copy, h) := h.newText (h.text r)
    (.str copy, h)
  | v => (v, h)

/-- Add an entry to a table, in place of any with the same key. -/
def insertEntry (h : Heap) (t : Table) (key value : Value) : Table × Heap :=
  let filed := h.key key
  let (kept, h) := h.entryKey key
  (t.insert filed ⟨kept, value⟩, h)

/-- Add pairs to a table, of which later ones win. -/
def insertPairs (h : Heap) (t : Table) : List (Value × Value) → Table × Heap
  | [] => (t, h)
  | (key, value) :: rest =>
    let (t, h) := h.insertEntry t key value
    h.insertPairs t rest

end Spinel.Heap
