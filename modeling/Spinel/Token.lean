import Spinel.Source.Position

/-!
# Tokens

The smallest pieces of a source text that mean something. Variable tokens keep their sigils, symbol
tokens drop the colon, and string tokens hold the text that the literal stands for.
-/

namespace Spinel

/-- The classes of tokens. -/
inductive TokenKind where
  | identifier
  | integer
  | float
  | string
  | operator
  | separator
  | symbol
  | instanceVar
  | classVar
  | globalVar
  | constant
  | endOfLine
deriving DecidableEq, Inhabited

/-- A piece of source text. -/
structure Token where
  kind : TokenKind
  text : String
  span : Span
  /-- Whether blanks or a comment stand right before it. -/
  spaced : Bool
deriving DecidableEq, Inhabited

namespace Token

def isOperator (t : Token) (text : String) : Bool := t.kind == .operator && t.text == text

def isSeparator (t : Token) (text : String) : Bool := t.kind == .separator && t.text == text

def isKeyword (t : Token) (text : String) : Bool := t.kind == .identifier && t.text == text

/-- Whether it ends a statement: a line end or a semicolon. -/
def isTerminator (t : Token) : Bool := t.kind == .endOfLine || t.isSeparator ";"

/-- How messages show it. -/
def shown (t : Token) : String :=
  match t.kind with
  | .endOfLine => "end-of-line"
  | .string => "\"" ++ t.text ++ "\""
  | .symbol => ":" ++ t.text
  | _ => t.text

end Token

end Spinel
