import Spinel.Source.Stream

/-!
# Syntax errors

What can be wrong with a source text, where it was noticed, and how it is told: the place and the
cause, then the offending line with a caret under the column.
-/

namespace Spinel

/-- Why a text is not a program. -/
inductive SyntaxFault where
  | unexpectedEnd
  | unexpectedChar (c : Char)
  | unterminatedString
  | invalidSymbol
  | invalidNumber (text : String)
  | unexpectedToken (shown : String)
  | expected (what : String)
  | invalidAssignment
deriving DecidableEq

/-- The wording of each cause. -/
def SyntaxFault.message : SyntaxFault → String
  | .unexpectedEnd => "unexpected end of input"
  | .unexpectedChar c => s!"unexpected character '{c}'"
  | .unterminatedString => "unterminated string meets end of file"
  | .invalidSymbol => "invalid symbol"
  | .invalidNumber text => s!"invalid number '{text}'"
  | .unexpectedToken shown => s!"unexpected '{shown}'"
  | .expected what => s!"expected {what}"
  | .invalidAssignment => "invalid assignment target"

/-- A cause, its place, and the text of its line as far as that line had been read. -/
structure SyntaxError where
  position : Position
  fault : SyntaxFault
  lineText : Option String
deriving DecidableEq

namespace SyntaxError

/-- The error at a place of the text that `s` reads. -/
def here (s : Stream) (position : Position) (fault : SyntaxFault) : SyntaxError :=
  ⟨position, fault, s.lineText position.line.toNat⟩

/-- `count` copies of a character. -/
def repeated (count : Nat) (c : Char) : String := String.ofList (List.replicate count c)

/-- The error as text. Lines and columns are told counting from one. -/
def text (e : SyntaxError) : String :=
  let line := e.position.line + 1
  let column := e.position.column + 1
  let head := s!"{line}:{column}: " ++ e.fault.message
  match e.lineText with
  | none => head
  | some shown => head ++ "\n" ++ shown ++ "\n" ++ repeated e.position.column.toNat ' ' ++ "^"

end SyntaxError

end Spinel
