import Spinel.Source.Position

/-!
# Reading a text character by character

A `Stream` is a text with a cursor in it. A text given as a whole is available at once; a text that
comes from a reader becomes available line by line, whenever a character past the last available
one is asked for. The `horizon` counts the characters available so far. It decides what
`availableText` and `lineText` show, and nothing else: the characters read are the same either way.
-/

namespace Spinel

/-- A text with a cursor, and the number of its characters that are available so far. -/
structure Stream where
  /-- The characters before the cursor, the last one first. -/
  before : List Char
  /-- The characters behind the cursor. -/
  rest : List Char
  /-- The place of the cursor. -/
  position : Position
  /-- How many characters of the text are available. -/
  horizon : Nat
deriving Inhabited

namespace Stream

/-- A stream over a text that is available as a whole. -/
def ofText (text : String) : Stream :=
  let cs := text.toList
  ⟨[], cs, .start, cs.length⟩

/-- A stream over a text whose lines become available on demand. -/
def ofReader (text : String) : Stream :=
  ⟨[], text.toList, .start, 0⟩

/-- The whole text, available or not. -/
def whole (s : Stream) : List Char := s.before.reverse ++ s.rest

/-- The number of characters up to the first line feed, which counts. -/
def lineLength : List Char → Nat
  | [] => 0
  | c :: cs => if c = '\n' then 1 else lineLength cs + 1

theorem lineLength_pos {cs : List Char} (h : cs ≠ []) : 0 < lineLength cs := by
  cases cs with
  | nil => exact absurd rfl h
  | cons c cs => unfold lineLength; split <;> omega

/-- Make the next `n` characters available, and with them the lines they stand on. -/
def demand (n : Nat) (s : Stream) : Stream :=
  if s.position.offset + n ≤ s.horizon then s
  else
    let ahead := (s.rest.take n).length - 1
    { s with horizon := max s.horizon (s.position.offset + ahead + lineLength (s.rest.drop ahead)) }

/-- Move the cursor behind the next character, if there is one. -/
def step (s : Stream) : Stream :=
  match s.rest with
  | [] => s
  | c :: cs => { s with before := c :: s.before, rest := cs, position := s.position.next c }

/-- Move the cursor behind the next `n` characters. -/
def advance : Nat → Stream → Stream
  | 0, s => s
  | n + 1, s => advance n s.step

/-- The next character, and the stream behind it. -/
def next (s : Stream) : Option Char × Stream :=
  (s.rest.head?, (s.demand 1).step)

/-- The next character, and the stream with the cursor left in place. -/
def peek (s : Stream) : Option Char × Stream :=
  (s.rest.head?, s.demand 1)

/-- Move the cursor back over one character, if there is one. -/
def back (s : Stream) : Stream :=
  match s.before with
  | [] => s
  | c :: cs =>
    let p := s.position
    let q : Position :=
      if c = '\n' then ⟨p.offset - 1, p.line - 1, .ofNat (cs.takeWhile (· ≠ '\n')).length⟩
      else ⟨p.offset - 1, p.line, p.column - 1⟩
    { s with before := cs, rest := c :: s.rest, position := q }

/-- The characters of the text that are available so far. -/
def available (s : Stream) : List Char := s.whole.take s.horizon

/-- The available characters as a text. -/
def availableText (s : Stream) : String := String.ofList s.available

/-- What follows the first `n` line feeds, if there are that many. -/
def dropLines : Nat → List Char → Option (List Char)
  | 0, cs => some cs
  | n + 1, cs =>
    match cs.dropWhile (· ≠ '\n') with
    | [] => none
    | _ :: rest => dropLines n rest

/-- The text of line `n` without its line feed and without carriage returns, if that line has begun
in the available text. -/
def lineText (n : Nat) (s : Stream) : Option String :=
  (dropLines n s.available).map fun cs =>
    String.ofList ((cs.takeWhile (· ≠ '\n')).filter (· ≠ '\r'))

end Stream

/-- The leading lines of some bytes that are valid UTF-8, as text. A line runs up to and including
its line feed; the first line that is not valid and all that follows it are dropped. -/
def decodeLines (bytes : ByteArray) : String :=
  go bytes.toList #[] ""
where
  /-- Reads on, with the bytes of the current line in `line` and the valid lines in `text`. -/
  go : List UInt8 → Array UInt8 → String → String
    | [], line, text => text ++ (String.fromUTF8? ⟨line⟩).getD ""
    | b :: bs, line, text =>
      let line := line.push b
      if b = 10 then
        match String.fromUTF8? ⟨line⟩ with
        | some valid => go bs #[] (text ++ valid)
        | none => text
      else go bs line text

end Spinel
