import Spinel.Token.Lexeme

/-!
# The lexer

Cuts the text of a stream into tokens, one at a time, and takes tokens back. A failed step leaves
the lexer usable behind the characters that the malformed lexeme took.
-/

namespace Spinel

/-- A stream, and the tokens given back to it, the next one first. -/
structure Lexer where
  stream : Stream
  pushed : List Token := []
deriving Inhabited

namespace Lexer

/-- Give a token back, so that it comes next. -/
def push (l : Lexer) (t : Token) : Lexer := { l with pushed := t :: l.pushed }

/-- Move over the blanks ahead; whether there were any. -/
def skipBlanks (s : Stream) : Bool × Stream :=
  let gap := Lexeme.blanks s.rest false
  (0 < gap, (s.demand (gap + 1)).advance gap)

/-- Read one token off a stream that stands before no blanks. -/
def scan (spaced : Bool) (s : Stream) : Except SyntaxError (Option Token) × Stream :=
  match s.rest with
  | [] => (.ok none, s)
  | c :: cs =>
    let lexeme := Lexeme.ofChars c cs
    let after := (s.demand (max lexeme.length lexeme.lookahead)).advance lexeme.length
    match lexeme.reading with
    | .token kind text =>
      (.ok (some ⟨kind, text, .between s.position after.position, spaced⟩), after)
    | .malformed fault .first => (.error (.here after s.position fault), after)
    | .malformed fault .last => (.error (.here after after.position fault), after)

/-- The next token, or none at the end of the text. -/
def next (l : Lexer) : Except SyntaxError (Option Token) × Lexer :=
  match l.pushed with
  | t :: ts => (.ok (some t), { l with pushed := ts })
  | [] =>
    let (spaced, s) := skipBlanks l.stream
    let (result, after) := scan spaced s
    (result, { l with stream := after })

/-- Tokens up to the end of the text, or up to the first error; at most `limit` of them. -/
def tokensUpTo : Nat → Lexer → List Token × Option SyntaxError
  | 0, _ => ([], none)
  | limit + 1, l =>
    match l.next with
    | (.ok none, _) => ([], none)
    | (.error e, _) => ([], some e)
    | (.ok (some t), l) =>
      let (ts, e) := tokensUpTo limit l
      (t :: ts, e)

/-- The tokens of a text up to its end or up to the first error. Every token takes a character, so
there are no more of them than characters. -/
def tokens (s : Stream) : List Token × Option SyntaxError :=
  tokensUpTo (s.rest.length + 1) ⟨s, []⟩

end Lexer

end Spinel
