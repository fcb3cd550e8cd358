import Spinel.Text.Printable

/-!
# Escaped texts

How descriptions of values show strings: between double quotes, with everything that cannot be
printed written by its code point.
-/

namespace Spinel.Text

/-- A code point in base sixteen between braces. -/
def codePoint (c : Char) : List Char :=
  '\\' :: 'u' :: '\x7b' :: (Nat.toDigits 16 c.toNat ++ ['\x7d'])

/-- One character of an escaped text. -/
def escapedChar (c : Char) : List Char :=
  match c with
  | '\x00' => ['\\', '0']
  | '\t' => ['\\', 't']
  | '\r' => ['\\', 'r']
  | '\n' => ['\\', 'n']
  | '"' => ['\\', '"']
  | '\\' => ['\\', '\\']
  | c => if CharSet.extending.contains c || CharSet.unprintable.contains c then codePoint c else [c]

/-- A string as descriptions show it. -/
def escaped (s : String) : String :=
  String.ofList ('"' :: (s.toList.flatMap escapedChar ++ ['"']))

end Spinel.Text
