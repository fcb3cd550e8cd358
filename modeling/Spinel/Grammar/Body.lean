import Spinel.Grammar.Cursor

/-!
# Statement lists and parameters

Bodies run up to a closing keyword or bracket, parameter lists up to a closing separator.
-/

namespace Spinel.Grammar

/-- Whether a token closes a body. -/
def isCloser (closers : List String) (t : Token) : Bool :=
  (t.kind == .identifier || t.kind == .separator) && closers.contains t.text

/-- Tokens that end a statement without belonging to it. -/
def statementClosers : List String := ["end", "\x7d", "else", "elsif", ")", "when"]

/-- How messages call a closer. -/
def describe (closer : String) : String :=
  if closer == "end" || closer == "\x7d" || closer == ")" || closer == "]" || closer == "|" then
    "'" ++ closer ++ "'"
  else "end of block"

/-- What has to follow a statement: its terminator, the end of the text, or a closer. -/
def endOfCommand : Parse Unit := do
  match ← next with
  | none => pure ()
  | some t =>
    if t.isTerminator then pure ()
    else if isCloser statementClosers t then push t
    else unexpected (some t)

/-- Statements up to one of the closers, and that closer. -/
def body (r : Rules) (closers : List String) : Nat → Parse (List Node × Token)
  | 0 => exhausted
  | n + 1 => do
    skipTerminators n
    match ← next with
    | none => expected none (describe (closers.headD ""))
    | some t =>
      if isCloser closers t then pure ([], t)
      else do
        push t
        let node ← r .statement
        endOfCommand
        let (nodes, closer) ← body r closers n
        pure (node :: nodes, closer)

/-- Statements up to the closer. -/
def bodyUntil (r : Rules) (n : Nat) (closer : String) : Parse (List Node) := do
  pure (← body r [closer] n).1

/-! ## Parameters -/

/-- One more parameter. -/
def param (params : Params) : Parse Params := do
  let t ← nextRequired
  if t.isOperator "&" then
    let name ← expect (·.kind == .identifier) "block parameter name"
    pure { params with block := some name.text }
  else if t.kind == .identifier then pure { params with names := params.names ++ [t.text] }
  else expected (some t) "parameter name"

/-- One or more parameters up to the closer. -/
def paramsUntil (closer : String) : Nat → Params → Parse Params
  | 0, _ => exhausted
  | n + 1, params => do
    let params ← param params
    skipNewlines n
    match ← next with
    | none => expected none (describe closer)
    | some t =>
      if t.isSeparator "," then do
        skipNewlines n
        paramsUntil closer n params
      else if t.isSeparator closer then pure params
      else expected (some t) (describe closer)

/-- Any number of parameters up to the closer. -/
def paramList (n : Nat) (closer : String) : Parse Params := do
  skipNewlines n
  if ← acceptSeparator closer then pure {} else paramsUntil closer n {}

/-- One or more parameters without brackets. -/
def bareParams : Nat → Params → Parse Params
  | 0, _ => exhausted
  | n + 1, params => do
    let params ← param params
    if ← acceptSeparator "," then bareParams n params else pure params

/-- The parameters behind a method's name. -/
def methodParams (n : Nat) : Parse Params := do
  match ← next with
  | none => pure {}
  | some t =>
    if t.isSeparator "(" then paramList n ")"
    else do
      push t
      if t.kind == .identifier || t.isOperator "&" then bareParams n {} else pure {}

/-- The parameters behind the arrow of a lambda. -/
def lambdaParams (n : Nat) : Parse Params := do
  match ← next with
  | none => pure {}
  | some t =>
    if t.isSeparator "(" then paramList n ")"
    else do
      push t
      if t.kind == .identifier then bareParams n {} else pure {}

/-- The parameters at the beginning of a block. -/
def blockParams (n : Nat) : Parse Params := do
  match ← next with
  | none => pure {}
  | some t =>
    if t.isOperator "||" then pure {}
    else if t.isSeparator "|" then paramList n "|"
    else do
      push t
      pure {}

end Spinel.Grammar
