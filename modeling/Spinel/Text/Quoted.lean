import Spinel.Text.Letter

/-!
# Quoted texts and symbols

How programs show strings and symbols: between double quotes, with escapes that the lexer reads
back. A symbol that is an operator or looks like a name goes without quotes.
-/

namespace Spinel.Text

/-- The control characters. -/
def isControl (c : Char) : Bool := c.toNat < 32 || (127 ≤ c.toNat && c.toNat < 160)

/-- A digit of base sixteen, in capitals. -/
def hexDigit (n : Nat) : Char := if n < 10 then Char.ofNat (48 + n) else Char.ofNat (55 + n)

/-- The last four digits of a number in base sixteen. -/
def hexFour (n : Nat) : List Char :=
  [hexDigit (n / 4096 % 16), hexDigit (n / 256 % 16), hexDigit (n / 16 % 16), hexDigit (n % 16)]

/-- What `#` must not stand before in a string. -/
def opensHash : Option Char → Bool
  | some c => c = '{' || c = '$' || c = '@'
  | none => false

/-- One character of a quoted text, before the character `next`. -/
def quotedChar (c : Char) (next : Option Char) : List Char :=
  match c with
  | '"' => ['\\', '"']
  | '\\' => ['\\', '\\']
  | '\n' => ['\\', 'n']
  | '\t' => ['\\', 't']
  | '\r' => ['\\', 'r']
  | '\x1b' => ['\\', 'e']
  | '#' => if opensHash next then ['\\', '#'] else ['#']
  | c => if isControl c then '\\' :: 'u' :: hexFour c.toNat else [c]

/-- What stands between the quotes. -/
def quotedBody : List Char → List Char
  | [] => []
  | c :: cs => quotedChar c cs.head? ++ quotedBody cs

/-- A text between quotes. -/
def quotedChars (cs : List Char) : List Char := '"' :: (quotedBody cs ++ ['"'])

/-- A string as programs show it. -/
def quoted (s : String) : String := String.ofList (quotedChars s.toList)

/-! ## Symbols -/

/-- The operators that are symbols without quotes. -/
def operatorSymbols : List (List Char) :=
  [['+'], ['-'], ['*'], ['/'], ['%'], ['*', '*'], ['=', '='], ['=', '=', '='], ['!', '='],
    ['<', '=', '>'], ['<'], ['>'], ['<', '='], ['>', '='], ['<', '<'], ['>', '>'], ['&'], ['|'],
    ['^'], ['!'], ['[', ']'], ['[', ']', '='], ['-', '@'], ['+', '@']]

/-- Leave out the sigil of a variable. -/
def withoutSigil : List Char → List Char
  | '@' :: '@' :: cs => cs
  | '@' :: cs => cs
  | '$' :: cs => cs
  | cs => cs

/-- Leave out a last `?`, `!` or `=`. -/
def withoutMark (cs : List Char) : List Char :=
  match cs.getLast? with
  | some c => if c = '?' || c = '!' || c = '=' then cs.dropLast else cs
  | none => cs

/-- Whether a character may open a name. -/
def opensName (c : Char) : Bool := c = '_' || CharSet.alphabetic.contains c

/-- Whether a character may stand inside a name. -/
def continuesName (c : Char) : Bool := opensName c || CharSet.numeric.contains c

/-- Whether the characters make up a name. -/
def isName : List Char → Bool
  | [] => false
  | c :: cs => opensName c && cs.all continuesName

/-- Whether a symbol can be written without quotes. -/
def isPlainSymbol (cs : List Char) : Bool :=
  operatorSymbols.contains cs || isName (withoutMark (withoutSigil cs))

/-- A symbol as programs show it. -/
def symbolText (name : String) : String :=
  let cs := name.toList
  String.ofList (':' :: (if isPlainSymbol cs then cs else quotedChars cs))

end Spinel.Text
