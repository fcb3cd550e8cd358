import Spinel.Token
import Spinel.SyntaxError

/-!
# Lexemes

What stands at the beginning of a text: the rules for names, numbers, strings, symbols, variables,
operators and separators, each as a function of the characters ahead. A `Lexeme` says how many of
them it takes and how many it looked at; where in the source it stands is the lexer's business.
-/

namespace Spinel

/-- Which end of a malformed lexeme an error points to. -/
inductive LexemeEnd where
  | first
  | last
deriving DecidableEq

/-- What a lexeme stands for. -/
inductive Reading where
  | token (kind : TokenKind) (text : String)
  | malformed (fault : SyntaxFault) (place : LexemeEnd)
deriving DecidableEq

/-- A reading of the characters ahead. -/
structure Lexeme where
  reading : Reading
  /-- How many characters it takes. -/
  length : Nat
  /-- How many characters were looked at to decide that. -/
  lookahead : Nat
deriving DecidableEq

namespace Lexeme

/-- A token that is taken without looking past a line feed. -/
def plain (kind : TokenKind) (text : List Char) (length : Nat) : Lexeme :=
  ⟨.token kind (String.ofList text), length, length⟩

/-! ## Blanks -/

/-- How many leading characters are blanks (spaces, tabs, carriage returns), comments (from `#` up
to the line feed, which is none of them) or line feeds behind a backslash. -/
def blanks : List Char → (inComment : Bool) → Nat
  | [], _ => 0
  | '\\' :: '\n' :: cs, false => blanks cs false + 2
  | c :: cs, false =>
    if c = ' ' ∨ c = '\t' ∨ c = '\r' then blanks cs false + 1
    else if c = '#' then blanks cs true + 1
    else 0
  | c :: cs, true => if c = '\n' then 0 else blanks cs true + 1

/-! ## Names -/

def isNameStart (c : Char) : Bool := c.isAlpha || c == '_'

def isNameChar (c : Char) : Bool := c.isAlphanum || c == '_'

/-- The name ahead, with a `?` or `!` behind it unless that begins `?=` or `!=`. -/
def identifier (cs : List Char) : List Char :=
  let name := cs.takeWhile isNameChar
  match cs.drop name.length with
  | [] => name
  | mark :: rest =>
    if (mark = '?' ∨ mark = '!') ∧ rest.head? ≠ some '=' then name ++ [mark] else name

/-! ## Operators and separators -/

def operatorsOfThree : List (List Char) :=
  [['=', '=', '='], ['<', '=', '>'], ['.', '.', '.'], ['*', '*', '=']]

def operatorsOfTwo : List (List Char) :=
  [['*', '*'], ['=', '='], ['!', '='], ['<', '='], ['>', '='], ['<', '<'], ['>', '>'], ['=', '>'],
    ['-', '>'], ['&', '&'], ['|', '|'], ['+', '='], ['-', '='], ['*', '='], ['/', '='], ['.', '.'],
    ['-', '@'], ['+', '@']]

def operatorsOfOne : List Char :=
  ['+', '-', '*', '/', '%', '=', '<', '>', '!', '&', '^', '~']

def separators : List Char :=
  [';', '(', ')', '[', ']', ',', '.', '|', '\x7b', '\x7d']

/-- Whether an operator is the name of a unary sign method. -/
def isSignName (op : List Char) : Bool := op == ['-', '@'] || op == ['+', '@']

/-- The longest operator ahead. A sign and an at sign are one operator only if no name follows, so
that a variable can be subtracted without a space. -/
def operator? (cs : List Char) : Option (List Char) :=
  if cs.take 3 ∈ operatorsOfThree then some (cs.take 3)
  else if cs.take 2 ∈ operatorsOfTwo then
    if isSignName (cs.take 2) && (cs.drop 2).head?.any isNameChar then some (cs.take 1)
    else some (cs.take 2)
  else
    match cs with
    | [] => none
    | c :: _ => if c ∈ operatorsOfOne then some [c] else none

/-! ## Strings -/

/-- What a backslash and `c` stand for between double quotes. -/
def unescape (c : Char) : Char :=
  match c with
  | 'n' => '\n'
  | 't' => '\t'
  | 'r' => '\r'
  | '0' => '\x00'
  | 'e' => '\x1b'
  | 's' => ' '
  | c => c

/-- What a backslash and `c` stand for in a string with the given quote. Between single quotes only
the quote and the backslash can be escaped. -/
def escaped (quote c : Char) : List Char :=
  if quote = '\'' then
    if c = '\'' ∨ c = '\\' then [c] else ['\\', c]
  else [unescape c]

/-- The contents of a string up to its closing quote and the number of characters they and the
quote take, if the string is closed. The quote is no backslash. -/
def quoted (quote : Char) : List Char → Option (List Char × Nat)
  | [] => none
  | '\\' :: c :: cs =>
    (quoted quote cs).map fun (text, n) => (escaped quote c ++ text, n + 2)
  | c :: cs =>
    if c = quote then some ([], 1)
    else if c = '\\' then none
    else (quoted quote cs).map fun (text, n) => (c :: text, n + 1)

/-- A string that opens with `opening` characters, the last of them its quote. -/
def string (kind : TokenKind) (quote : Char) (opening : Nat) (body : List Char) : Lexeme :=
  match quoted quote body with
  | some (text, n) => plain kind text (opening + n)
  | none =>
    let length := opening + body.length
    ⟨.malformed .unterminatedString .first, length, length⟩

/-! ## Numbers -/

def isDigitOrBar (c : Char) : Bool := c.isDigit || c == '_'

/-- Digits behind a point, if the point stands before a digit. -/
def fraction : List Char → List Char
  | '.' :: d :: cs => if d.isDigit then (d :: cs).takeWhile isDigitOrBar else []
  | _ => []

/-- A number. Bars between its digits do not count, and no letter may follow. -/
def number (cs : List Char) : Lexeme :=
  let whole := cs.takeWhile isDigitOrBar
  let part := fraction (cs.drop whole.length)
  let (kind, text, length) :=
    if part.isEmpty then (TokenKind.integer, whole.filter Char.isDigit, whole.length)
    else (TokenKind.float, whole.filter Char.isDigit ++ '.' :: part.filter Char.isDigit,
      whole.length + 1 + part.length)
  match cs.drop length with
  | c :: _ =>
    if isNameStart c then
      ⟨.malformed (.invalidNumber (String.ofList (text ++ [c]))) .last, length + 1, length + 1⟩
    else plain kind text length
  | [] => plain kind text length

/-! ## Variables and symbols -/

/-- An instance, class or global variable, sigil included. -/
def sigiled (first : Char) (rest : List Char) : Lexeme :=
  let (kind, sigil) :=
    if first = '$' then (TokenKind.globalVar, [first])
    else if rest.head? = some '@' then (TokenKind.classVar, [first, '@'])
    else (TokenKind.instanceVar, [first])
  let name := (first :: rest).drop sigil.length
  if name.head?.any isNameStart then
    let text := sigil ++ name.takeWhile isNameChar
    plain kind text text.length
  else ⟨.malformed (.unexpectedChar first) .first, sigil.length, sigil.length⟩

/-- What a name behind a colon becomes: a setter's name takes the `=` behind it, unless that begins
`==`, `=>` or `=~`. -/
def setterName (name : List Char) : List Char → List Char
  | '=' :: c :: _ => if c = '=' ∨ c = '>' ∨ c = '~' then name else name ++ ['=']
  | ['='] => name ++ ['=']
  | _ => name

/-- A symbol of a name, its length including the colon. -/
def symbolOf (name : List Char) : Lexeme := plain .symbol name (name.length + 1)

/-- A malformed symbol that takes `length` characters. -/
def badSymbol (length : Nat) : Lexeme :=
  ⟨.malformed .invalidSymbol .first, length, length⟩

/-- What stands behind a colon: a symbol, or the second half of `::`. -/
def symbol : List Char → Lexeme
  | [] => badSymbol 1
  | ':' :: _ => plain .separator [':', ':'] 2
  | '"' :: body => string .symbol '"' 2 body
  | c :: rest =>
    let cs := c :: rest
    if isNameStart c then
      let name := identifier cs
      symbolOf (setterName name (cs.drop name.length))
    else if c = '@' ∨ c = '$' then
      let sigil := if c = '@' ∧ rest.head? = some '@' then [c, '@'] else [c]
      let name := (cs.drop sigil.length).takeWhile isNameChar
      if name.isEmpty then badSymbol (1 + sigil.length) else symbolOf (sigil ++ name)
    else
      let lexeme :=
        match operator? cs with
        | some op => symbolOf op
        | none =>
          match cs with
          | '[' :: ']' :: '=' :: _ => symbolOf ['[', ']', '=']
          | '[' :: ']' :: _ => symbolOf ['[', ']']
          | '[' :: _ :: _ => badSymbol 3
          | '[' :: _ => badSymbol 2
          | _ => badSymbol 1
      { lexeme with lookahead := 4 }

/-! ## All together -/

/-- The lexeme at the beginning of the nonempty text `c :: rest`. -/
def ofChars (c : Char) (rest : List Char) : Lexeme :=
  let cs := c :: rest
  if c = '\n' then plain .endOfLine [c] 1
  else if c = '"' ∨ c = '\'' then string .string c 1 rest
  else if c = ':' then symbol rest
  else if c = '@' ∨ c = '$' then sigiled c rest
  else if c.isDigit then number cs
  else if isNameStart c then
    let name := identifier cs
    plain (if c.isUpper then .constant else .identifier) name name.length
  else
    let lexeme : Lexeme :=
      match operator? cs with
      | some op => plain .operator op op.length
      | none =>
        if c ∈ separators then plain .separator [c] 1
        else ⟨.malformed (.unexpectedChar c) .first, 0, 0⟩
    { lexeme with lookahead := 3 }

end Lexeme

end Spinel
