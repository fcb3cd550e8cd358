import Spinel.Grammar.Operator

/-!
# Programs

The rules tied together, with a bound on how deep they call one another, and the reading of whole
texts. Every rule takes a token before it comes back to itself, so a bound that is linear in the
length of the text is enough.
-/

namespace Spinel.Grammar

/-- One step from the rules that may still be used to depth `n`. -/
def step (n : Nat) (r : Rules) : Rules
  | .statement => statement r n
  | .clause => clause r n
  | .negation => negation r
  | .expression => expression r n
  | .value => value r n
  | .operand => operand r n
  | .conditional start => conditional r n start false

/-- The rules, usable to the given depth. -/
def rules : Nat → Rules
  | 0, _ => exhausted
  | n + 1, rule => step n (rules n) rule

/-- One statement and what ends it, or nothing at the end of the text. -/
def command (r : Rules) (n : Nat) : Parse (Option Node) := do
  skipTerminators n
  match ← peek with
  | none => pure none
  | some _ => do
    let node ← r .statement
    endOfCommand
    pure (some node)

/-- The commands up to the end of the text. -/
def commands (r : Rules) : Nat → Parse (List Node)
  | 0 => exhausted
  | n + 1 => do
    match ← command r n with
    | none => pure []
    | some node => do
      let nodes ← commands r n
      pure (node :: nodes)

/-- A depth that suffices for a text of the given length. -/
def bound (length : Nat) : Nat := 8 * (length + 2)

/-- Read a whole program off a stream; also how far the stream was read. -/
def program (source : SourceId) (s : Stream) : EStateM.Result Stop Cursor (List Node) :=
  let n := bound s.rest.length
  commands (rules n) n (.start source s)

/-- What came of reading a program. -/
inductive Parsed where
  | program (body : List Node)
  | syntaxError (e : SyntaxError)
  /-- The bound on the depth was too small. -/
  | exhausted

/-- Read a whole program, and say which text was available in the end. -/
def parse (source : SourceId) (s : Stream) : Parsed × String :=
  match program source s with
  | .ok body c => (.program body, c.lexer.stream.availableText)
  | .error (.syntaxError e) c => (.syntaxError e, c.lexer.stream.availableText)
  | .error .exhausted c => (.exhausted, c.lexer.stream.availableText)

end Spinel.Grammar
