/-!
# Places and stretches of a source text

A `Position` is a place between two characters of a text, a `Span` a stretch of it. Offsets, lines
and columns count characters from zero; a line ends with its line feed. Lines and columns are words
of 32 bits: what does not fit into them is cut off.
-/

namespace Spinel

/-- A place in a text. -/
structure Position where
  /-- Characters before this place. -/
  offset : Nat
  /-- Line feeds before this place. -/
  line : UInt32
  /-- Characters since the last line feed, or since the beginning. -/
  column : UInt32
deriving DecidableEq, Inhabited

namespace Position

/-- The beginning of a text. -/
def start : Position := ⟨0, 0, 0⟩

/-- The place behind the character `c` that stands at `p`. -/
def next (p : Position) (c : Char) : Position :=
  if c = '\n' then ⟨p.offset + 1, p.line + 1, 0⟩ else ⟨p.offset + 1, p.line, p.column + 1⟩

/-- The place behind the characters `cs` that stand at `p`. -/
def advance (p : Position) (cs : List Char) : Position :=
  cs.foldl next p

@[simp] theorem advance_nil (p : Position) : p.advance [] = p := rfl

@[simp] theorem advance_cons (p : Position) (c : Char) (cs : List Char) :
    p.advance (c :: cs) = (p.next c).advance cs := rfl

theorem advance_append (p : Position) (cs ds : List Char) :
    p.advance (cs ++ ds) = (p.advance cs).advance ds :=
  List.foldl_append

@[simp] theorem next_offset (p : Position) (c : Char) : (p.next c).offset = p.offset + 1 := by
  unfold next; split <;> rfl

end Position

/-- A stretch of a text: where it starts and how many characters it has. -/
structure Span where
  start : Position
  length : Nat
deriving DecidableEq, Inhabited

namespace Span

/-- The offset behind the last character. -/
def stop (s : Span) : Nat := s.start.offset + s.length

/-- The empty stretch at a place. -/
def point (p : Position) : Span := ⟨p, 0⟩

/-- The stretch from one place to another behind it. -/
def between (p q : Position) : Span := ⟨p, q.offset - p.offset⟩

/-- The shortest stretch that starts with `a` and covers `a` and `b`, for a `b` that does not start
before `a`. -/
def join (a b : Span) : Span := ⟨a.start, max b.stop a.stop - a.start.offset⟩

end Span

end Spinel
