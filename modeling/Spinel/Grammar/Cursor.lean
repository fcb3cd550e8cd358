import Spinel.Token.Lexer
import Spinel.Tree

/-!
# The parser's cursor

The state in which the grammar's rules run, and the small steps they are made of: taking the next
token, giving it back, and taking it only if it fits. All lookahead is by giving one token back.
The cursor keeps a record of the moments behind these steps, which no rule reads.
-/

namespace Spinel.Grammar

/-- What there is to say of a parser between two of its steps. -/
structure Moment where
  /-- The tokens that were given back and are to be taken again. -/
  pushed : List Token
  /-- The span that counts as that of the last token taken. -/
  last : Span
  /-- The tokens that were taken by then and not given back, the last one first. -/
  taken : List Token

/-- Where the parser stands. -/
structure Cursor where
  lexer : Lexer
  /-- The text being read. -/
  source : SourceId
  /-- The span of the last token taken, and of the one before it. -/
  last : Span
  beforeLast : Span
  /-- Set in the header of a loop, where `do` opens the loop's body and no block. -/
  noDo : Bool
  /-- The tokens that were taken and not given back, the last one first. -/
  taken : List Token
  /-- The moments from the beginning on, the last one first. -/
  passed : List Moment
deriving Inhabited

namespace Cursor

/-- The present moment. -/
def moment (c : Cursor) : Moment := ⟨c.lexer.pushed, c.last, c.taken⟩

/-- Put the present moment on record. -/
def noted (c : Cursor) : Cursor := { c with passed := c.moment :: c.passed }

/-- Behind the token `t`, which left the lexer as `l`. -/
def took (c : Cursor) (t : Token) (l : Lexer) : Cursor :=
  noted { c with lexer := l, last := t.span, beforeLast := c.last, taken := t :: c.taken }

/-- Where there was no token, which left the lexer as `l`. -/
def tookNone (c : Cursor) (l : Lexer) : Cursor := noted { c with lexer := l }

/-- With the token `t`, which was the last one, given back. -/
def gaveBack (c : Cursor) (t : Token) : Cursor :=
  noted { c with lexer := c.lexer.push t, last := c.beforeLast, taken := c.taken.erase t }

/-- The beginning of a text. -/
def start (source : SourceId) (s : Stream) : Cursor :=
  noted ⟨⟨s, []⟩, source, .point .start, .point .start, false, [], []⟩

@[simp] theorem took_lexer (c : Cursor) (t : Token) (l : Lexer) : (c.took t l).lexer = l := rfl

@[simp] theorem tookNone_lexer (c : Cursor) (l : Lexer) : (c.tookNone l).lexer = l := rfl

@[simp] theorem gaveBack_lexer (c : Cursor) (t : Token) :
    (c.gaveBack t).lexer = c.lexer.push t := rfl

@[simp] theorem start_lexer (source : SourceId) (s : Stream) :
    (start source s).lexer = ⟨s, []⟩ := rfl

end Cursor

/-- Why a rule gave up. -/
inductive Stop where
  | syntaxError (e : SyntaxError)
  /-- The bound on the rules' recursion was too small. -/
  | exhausted

/-- A rule of the grammar, or a part of one. -/
abbrev Parse := EStateM Stop Cursor

/-- The grammar's rules that refer to one another. -/
inductive Rule where
  /-- An expression with trailing `if`, `unless`, `while` or `until`. -/
  | statement
  /-- Operands of `and` and `or`. -/
  | clause
  /-- An expression under any number of `not`. -/
  | negation
  /-- An expression or an assignment. -/
  | expression
  /-- An expression without assignment. -/
  | value
  /-- An operand of the binary operators. -/
  | operand
  /-- What follows an `if` or `elsif` at the given span. -/
  | conditional (start : Span)

/-- How the rules are reached from one another. -/
abbrev Rules := Rule → Parse Node

/-! ## Errors -/

/-- Fail at a place of the text. -/
def failAt {α : Type} (position : Position) (fault : SyntaxFault) : Parse α := fun c =>
  .error (.syntaxError (.here c.lexer.stream position fault)) c

/-- Fail at a token, or at the cursor if there is none. -/
def failOn {α : Type} (token : Option Token) (fault : SyntaxFault) : Parse α := fun c =>
  failAt ((token.map (·.span.start)).getD c.lexer.stream.position) fault c

/-- A token stands where none of its kind can. -/
def unexpected {α : Type} (token : Option Token) : Parse α :=
  match token with
  | none => failOn none .unexpectedEnd
  | some t => failOn token (.unexpectedToken t.shown)

/-- Something else should stand where the token stands. -/
def expected {α : Type} (token : Option Token) (what : String) : Parse α :=
  failOn token (.expected what)

def exhausted {α : Type} : Parse α := throw .exhausted

/-! ## Tokens -/

/-- Take the next token. -/
def next : Parse (Option Token) := fun c =>
  match c.lexer.next with
  | (.ok none, l) => .ok none (c.tookNone l)
  | (.ok (some t), l) => .ok (some t) (c.took t l)
  | (.error e, l) => .error (.syntaxError e) (c.tookNone l)

/-- Take the next token, which has to be there. -/
def nextRequired : Parse Token := do
  match ← next with
  | some t => pure t
  | none => unexpected none

/-- Give the last token back. -/
def push (t : Token) : Parse Unit := modify (·.gaveBack t)

/-- The next token, left in place. -/
def peek : Parse (Option Token) := do
  match ← next with
  | none => pure none
  | some t => do push t; pure (some t)

/-- Take the next token if it fits; whether it did. -/
def accept (fits : Token → Bool) : Parse Bool := do
  match ← next with
  | none => pure false
  | some t => if fits t then pure true else do push t; pure false

def acceptSeparator (text : String) : Parse Bool := accept (·.isSeparator text)

def acceptOperator (text : String) : Parse Bool := accept (·.isOperator text)

def acceptKeyword (text : String) : Parse Bool := accept (·.isKeyword text)

/-- Take the next token, which has to fit. -/
def expect (fits : Token → Bool) (what : String) : Parse Token := do
  match ← next with
  | none => expected none what
  | some t => if fits t then pure t else expected (some t) what

/-- Take tokens as long as they fit. -/
def skipWhile (fits : Token → Bool) : Nat → Parse Unit
  | 0 => exhausted
  | n + 1 => do if ← accept fits then skipWhile fits n else pure ()

/-- Take line ends and semicolons. -/
def skipTerminators (n : Nat) : Parse Unit := skipWhile (·.isTerminator) n

/-- Take line ends, as inside brackets. -/
def skipNewlines (n : Nat) : Parse Unit := skipWhile (·.kind == .endOfLine) n

/-! ## Spans and scopes -/

/-- The stretch from `start` up to the last token taken. -/
def spanFrom (start : Span) : Parse Span := do pure (start.join (← get).last)

/-- Run a part with `do` reserved for a loop or not, and go back to how it was. -/
def withNoDo {α : Type} (flag : Bool) (part : Parse α) : Parse α := do
  let saved := (← get).noDo
  modify fun c => { c with noDo := flag }
  let a ← part
  modify fun c => { c with noDo := saved }
  pure a

/-- The site of something that opens at a span. -/
def siteAt (span : Span) : Parse Site := do pure ⟨(← get).source, span.start.offset⟩

end Spinel.Grammar
