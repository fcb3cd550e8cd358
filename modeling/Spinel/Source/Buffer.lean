import Spinel.Source.Stream

/-!
# Characters in a buffer

A `Buffer` keeps the characters read so far in an array, so that going back is moving a cursor, and
beside them a table of the places where lines begin. A further line of the source is read whenever
the cursor stands behind all characters and one more is asked for. The place of the cursor is looked
up in the table, which is halved again and again.
-/

namespace Spinel

/-- The characters read so far, with a cursor among them and a table of their lines. -/
structure Buffer where
  chars : Array Char
  /-- How many of the characters stand before the cursor. -/
  cursor : Nat
  /-- How many characters stand before each line, the first line first. -/
  lineStarts : Array Nat
  /-- The characters of the source that were not read yet. -/
  unread : List Char
deriving Inhabited

namespace Buffer

/-! ## Reading on -/

/-- Put a character behind the others. A line begins behind a line feed. -/
def push (b : Buffer) (c : Char) : Buffer :=
  { b with
    chars := b.chars.push c
    lineStarts := if c = '\n' then b.lineStarts.push (b.chars.size + 1) else b.lineStarts }

def extend (b : Buffer) (cs : List Char) : Buffer := cs.foldl push b

/-- A buffer for a text whose lines are read on demand. -/
def ofReader (text : String) : Buffer := ⟨#[], 0, #[0], text.toList⟩

/-- A buffer that holds a text. -/
def ofText (text : String) : Buffer := (ofReader "").extend text.toList

/-- Read one more line. -/
def fill (b : Buffer) : Buffer :=
  let length := Stream.lineLength b.unread
  { b.extend (b.unread.take length) with unread := b.unread.drop length }

/-- The cursor stands behind all characters. -/
def exhausted (b : Buffer) : Bool := b.chars.size ≤ b.cursor

theorem length_unread_fill (b : Buffer) (h : b.unread ≠ []) :
    b.fill.unread.length < b.unread.length := by
  have hline := Stream.lineLength_pos h
  have hlength := List.length_pos_iff.2 h
  simp only [fill, List.length_drop]
  omega

/-- Read lines until there is a character behind the cursor, as long as there are any. -/
def refill (b : Buffer) : Buffer :=
  if b.exhausted ∧ b.unread ≠ [] then refill b.fill else b
termination_by b.unread.length
decreasing_by next h => exact b.length_unread_fill h.2

/-- The next character, and the buffer with the cursor behind it. -/
def next (b : Buffer) : Option Char × Buffer :=
  let b := b.refill
  match b.chars[b.cursor]? with
  | some c => (some c, { b with cursor := b.cursor + 1 })
  | none => (none, b)

/-- Move the cursor back over one character, if there is one. -/
def back (b : Buffer) : Buffer := { b with cursor := b.cursor - 1 }

/-- The next character, which is given back. -/
def peek (b : Buffer) : Option Char × Buffer :=
  match b.next with
  | (some c, b) => (some c, b.back)
  | (none, b) => (none, b)

/-! ## Places and lines -/

/-- How many entries of a table are at most `offset`, where those before `low` are and those from
`high` on are not. There is no answer if an entry is missing. -/
def search (starts : Array Nat) (offset low high : Nat) : Option Nat :=
  if low < high then
    let middle := low + (high - low) / 2
    match starts[middle]? with
    | none => none
    | some start =>
      if start ≤ offset then search starts offset (middle + 1) high
      else search starts offset low middle
  else some low
termination_by high - low

/-- The place of the cursor, on the last line that does not begin behind it. There is no answer if
the table has no such line. -/
def position? (b : Buffer) : Option Position := do
  match ← search b.lineStarts b.cursor 0 b.lineStarts.size with
  | 0 => none
  | line + 1 =>
    let start ← b.lineStarts[line]?
    if start ≤ b.cursor then some ⟨b.cursor, .ofNat line, .ofNat (b.cursor - start)⟩ else none

/-- The text that was read so far. -/
def text (b : Buffer) : String := String.ofList b.chars.toList

/-- The text of line `n` without its line feed and without carriage returns, if that line has begun
in what was read. -/
def lineText (n : Nat) (b : Buffer) : Option String := do
  let start ← b.lineStarts[n]?
  if b.chars.size < start then none
  else
    let line := (b.chars.toList.drop start).takeWhile (· ≠ '\n')
    some (String.ofList (line.filter (· ≠ '\r')))

end Buffer

end Spinel
