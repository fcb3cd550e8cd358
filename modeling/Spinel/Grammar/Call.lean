import Spinel.Grammar.Body

/-!
# Calls

Arguments with and without parentheses, blocks, and the chain of `.name`, `::Name` and `[index]`
behind a term.
-/

namespace Spinel.Grammar

/-- Keywords that can follow an expression without being its argument. -/
def nonArgKeywords : List String :=
  ["then", "do", "end", "else", "elsif", "in", "and", "or", "if", "unless", "while", "until",
    "rescue", "ensure", "when"]

/-- Whether a token behind a method's name begins its arguments. -/
def startsArgs (t : Token) : Bool :=
  match t.kind with
  | .endOfLine => false
  | .operator => t.text == "->" || t.text == "!"
  | .separator => t.text == "[" && t.spaced
  | .identifier => !nonArgKeywords.contains t.text
  | _ => true

/-! ## Arguments -/

/-- What stands between the commas: positional arguments, pairs, and what is handed on as the
block. -/
structure Args where
  positional : List Node := []
  pairs : List (Node × Node) := []
  block : BlockArg := .none

/-- The arguments behind a comma, if there is one. -/
def afterComma (n : Nat) (others : Parse Args) : Parse Args := do
  if ← acceptSeparator "," then do
    skipNewlines n
    others
  else pure {}

/-- A positional argument or a pair, and the arguments behind it. -/
def argument (r : Rules) (n : Nat) (others : Parse Args) : Parse Args := do
  let arg ← r .negation
  if ← acceptOperator "=>" then do
    skipNewlines n
    let value ← r .negation
    let rest ← afterComma n others
    pure { rest with pairs := (arg, value) :: rest.pairs }
  else do
    let rest ← afterComma n others
    pure { rest with positional := arg :: rest.positional }

/-- One or more arguments up to a token that continues none of them. -/
def argsLoop (r : Rules) : Nat → Parse Args
  | 0 => exhausted
  | n + 1 => do
    match ← next with
    | none => argument r n (argsLoop r n)
    | some t =>
      if t.isOperator "&" then do
        let node ← r .operand
        pure { block := .value node }
      else do
        push t
        argument r n (argsLoop r n)

/-- Pairs as one hash that spans them. -/
def pairsArg : List (Node × Node) → List Node
  | [] => []
  | (key, value) :: rest =>
    let last := (rest.getLast?.map Prod.snd).getD value
    [⟨key.span.join last.span, .hash ((key, value) :: rest)⟩]

/-- Arguments without parentheses. The pairs among them become one hash behind the others. -/
def commandArgs (r : Rules) (n : Nat) : Parse (List Node × BlockArg) := do
  let args ← argsLoop r n
  pure (args.positional ++ pairsArg args.pairs, args.block)

/-- Arguments behind an opening parenthesis, up to the closing one. -/
def parenArgs (r : Rules) (n : Nat) : Parse (List Node × BlockArg) :=
  withNoDo false do
    skipNewlines n
    if ← acceptSeparator ")" then pure ([], .none)
    else do
      let args ← commandArgs r n
      skipNewlines n
      let _ ← expect (·.isSeparator ")") "')'"
      pure args

/-- One or more expressions up to the closer, a comma allowed behind the last one. -/
def itemsUntil (r : Rules) (closer : String) : Nat → Parse (List Node)
  | 0 => exhausted
  | n + 1 => do
    let item ← r .negation
    skipNewlines n
    match ← next with
    | none => expected none (describe closer)
    | some t =>
      if t.isSeparator "," then do
        skipNewlines n
        if ← acceptSeparator closer then pure [item]
        else do
          let items ← itemsUntil r closer n
          pure (item :: items)
      else if t.isSeparator closer then pure [item]
      else expected (some t) (describe closer)

/-- Any number of expressions up to the closer. -/
def listUntil (r : Rules) (n : Nat) (closer : String) : Parse (List Node) :=
  withNoDo false do
    skipNewlines n
    if ← acceptSeparator closer then pure [] else itemsUntil r closer n

/-! ## Blocks -/

/-- Take the token that opens a block; its span and the closer it asks for. -/
def blockOpener : Parse (Option (Span × String)) := do
  match ← next with
  | none => pure none
  | some t =>
    if t.isSeparator "\x7b" then pure (some (t.span, "\x7d"))
    else if t.isKeyword "do" && !(← get).noDo then pure (some (t.span, "end"))
    else do
      push t
      pure none

/-- The block behind a call, if there is one. -/
def blockLiteral (r : Rules) (n : Nat) : Parse BlockArg := do
  match ← blockOpener with
  | none => pure .none
  | some (span, closer) =>
    let site ← siteAt span
    withNoDo false do
      let params ← blockParams n
      let nodes ← bodyUntil r n closer
      pure (.literal ⟨site, params, nodes⟩)

/-! ## Postfix chains -/

/-- The arguments and the block handed on behind a method's name, a block behind them apart. -/
def callArgs (r : Rules) (n : Nat) : Parse (List Node × BlockArg) := do
  match ← next with
  | none => pure ([], .none)
  | some t =>
    if t.isSeparator "(" then parenArgs r n
    else do
      push t
      if startsArgs t then commandArgs r n else pure ([], .none)

/-- The rest of a call behind the method's name. -/
def callRest (r : Rules) (n : Nat) (receiver : Option Node) (name : String) (nameSpan : Span) :
    Parse Node := do
  let (args, given) ← callArgs r n
  let block ← match given with
    | .none => blockLiteral r n
    | given => pure given
  let span ← spanFrom ((receiver.map Node.span).getD nameSpan)
  pure ⟨span, .call receiver name args block⟩

/-- Whether a parenthesis opens right at the cursor. -/
def parenFollows : Parse Bool := do
  match ← peek with
  | some t => pure (t.isSeparator "(" && !t.spaced)
  | none => pure false

/-- Whether a token can name a method behind a dot. -/
def isMethodName (t : Token) : Bool :=
  t.kind == .identifier || t.kind == .constant || t.kind == .operator

/-- What follows a dot or, if `scope`, a double colon behind a term. -/
def memberOf (r : Rules) (n : Nat) (term : Node) (scope : Bool) : Parse Node := do
  skipNewlines n
  let name ← nextRequired
  if !isMethodName name then expected (some name) "method name"
  else if scope && name.kind == .constant then do
    if ← parenFollows then callRest r n (some term) name.text name.span
    else pure ⟨term.span.join name.span, .scoped term name.text⟩
  else callRest r n (some term) name.text name.span

/-- A term with all that is chained to it. -/
def chain (r : Rules) : Nat → Node → Parse Node
  | 0, _ => exhausted
  | n + 1, term => do
    match ← next with
    | none => pure term
    | some t =>
      if t.isSeparator "." || t.isSeparator "::" then do
        let term ← memberOf r n term (t.isSeparator "::")
        chain r n term
      else if t.isSeparator "[" && !t.spaced then do
        let args ← listUntil r n "]"
        let span ← spanFrom term.span
        chain r n ⟨span, .index term args⟩
      else do
        push t
        pure term

/-- The arguments of `yield` and `super`. -/
def optionalArgs (r : Rules) (n : Nat) : Parse (List Node) := do
  pure (← callArgs r n).1

/-- The value of `return` and `next`, if there is one. -/
def optionalValue (r : Rules) : Parse (Option Node) := do
  match ← peek with
  | none => pure none
  | some t =>
    if startsArgs t || t.isSeparator "(" || t.isSeparator "[" then do
      let node ← r .expression
      pure (some node)
    else pure none

end Spinel.Grammar
