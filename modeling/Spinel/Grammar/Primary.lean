import Spinel.Grammar.Call
import Spinel.Text.Numeral

/-!
# Terms

Literals, names, brackets, control structures and definitions: what an operand can begin with.
-/

namespace Spinel.Grammar

/-! ## Numbers -/

/-- The float that digits with a point among them stand for. -/
def floatValue (negative : Bool) (text : List Char) : Float :=
  let whole := text.takeWhile (· ≠ '.')
  let part := (text.dropWhile (· ≠ '.')).drop 1
  Binary64.ofDecimal negative (Text.decimalValue (whole ++ part)) (-part.length)

/-- A number literal, with a sign before it if `negative`. -/
def number (t : Token) (negative : Bool) : Parse Form :=
  if t.kind == .float then pure (.float (floatValue negative t.text.toList))
  else
    let magnitude : Int := Text.decimalValue t.text.toList
    match int64? (if negative then -magnitude else magnitude) with
    | some value => pure (.integer value)
    | none =>
      failAt t.span.start (.invalidNumber (if negative then "-" ++ t.text else t.text))

/-! ## Brackets -/

/-- One or more statements up to a closing parenthesis. -/
def parenStatements (r : Rules) : Nat → Parse (List Node)
  | 0 => exhausted
  | n + 1 => do
    let node ← r .statement
    match ← next with
    | none => expected none "')'"
    | some t =>
      if t.isSeparator ")" then pure [node]
      else if t.isTerminator then do
        skipTerminators n
        if ← acceptSeparator ")" then pure [node]
        else do
          let nodes ← parenStatements r n
          pure (node :: nodes)
      else expected (some t) "')'"

/-- What stands behind an opening parenthesis: nothing is `nil`, and one statement is itself. -/
def parenthesized (r : Rules) (n : Nat) (start : Span) : Parse Node := do
  let nodes ← withNoDo false do
    skipTerminators n
    if ← acceptSeparator ")" then pure [] else parenStatements r n
  let span ← spanFrom start
  match nodes with
  | [] => pure ⟨span, .nil⟩
  | [node] => pure node
  | nodes => pure ⟨span, .sequence nodes⟩

/-- One or more pairs up to a closing brace, a comma allowed behind the last one. -/
def pairsUntil (r : Rules) : Nat → Parse (List (Node × Node))
  | 0 => exhausted
  | n + 1 => do
    let key ← r .negation
    skipNewlines n
    let _ ← expect (·.isOperator "=>") "'=>'"
    skipNewlines n
    let value ← r .negation
    skipNewlines n
    match ← next with
    | none => expected none (describe "\x7d")
    | some t =>
      if t.isSeparator "," then do
        skipNewlines n
        if ← acceptSeparator "\x7d" then pure [(key, value)]
        else do
          let pairs ← pairsUntil r n
          pure ((key, value) :: pairs)
      else if t.isSeparator "\x7d" then pure [(key, value)]
      else expected (some t) (describe "\x7d")

/-- What stands behind an opening brace. -/
def hashLiteral (r : Rules) (n : Nat) (start : Span) : Parse Node := do
  let pairs ← withNoDo false do
    skipNewlines n
    if ← acceptSeparator "\x7d" then pure [] else pairsUntil r n
  let span ← spanFrom start
  pure ⟨span, .hash pairs⟩

/-- What stands behind an arrow. -/
def lambda (r : Rules) (n : Nat) (start : Span) : Parse Node := do
  let params ← lambdaParams n
  match ← blockOpener with
  | none => do
    let t ← next
    expected t "'\x7b' or 'do'"
  | some (_, closer) => do
    let nodes ← withNoDo false (bodyUntil r n closer)
    let site ← siteAt start
    let span ← spanFrom start
    pure ⟨span, .lambda ⟨site, params, nodes⟩⟩

/-! ## Control structures -/

/-- An optional `then` behind a condition. -/
def thenKeyword (n : Nat) : Parse Unit := do
  skipTerminators n
  let _ ← acceptKeyword "then"
  pure ()

/-- The branch behind the closer of the first one. -/
def otherBranch (r : Rules) (n : Nat) (closer : Token) : Parse (List Node) :=
  if closer.text == "elsif" then do
    let node ← r (.conditional closer.span)
    pure [node]
  else if closer.text == "else" then bodyUntil r n "end"
  else pure []

/-- What stands behind `if`, or behind `unless` if `negate`. -/
def conditional (r : Rules) (n : Nat) (start : Span) (negate : Bool) : Parse Node := do
  let condition ← r .clause
  thenKeyword n
  let (first, closer) ← body r (if negate then ["else", "end"] else ["elsif", "else", "end"]) n
  let other ← otherBranch r n closer
  let span ← spanFrom start
  pure ⟨span, if negate then .branch condition other first else .branch condition first other⟩

/-- The header of a loop, with `do` kept for the loop itself. -/
def loopHeader (r : Rules) (n : Nat) : Parse Node := do
  let node ← withNoDo true (r .clause)
  skipTerminators n
  let _ ← acceptKeyword "do"
  pure node

/-- What stands behind `while` or `until`. -/
def loop (r : Rules) (n : Nat) (start : Span) (wanted : Bool) : Parse Node := do
  let condition ← loopHeader r n
  let nodes ← bodyUntil r n "end"
  let span ← spanFrom start
  pure ⟨span, .loop wanted condition nodes⟩

/-- What stands behind `for`. -/
def forEach (r : Rules) (n : Nat) (start : Span) : Parse Node := do
  let name ← expect (·.kind == .identifier) "loop variable"
  let _ ← expect (·.isKeyword "in") "'in'"
  let iterable ← loopHeader r n
  let nodes ← bodyUntil r n "end"
  let site ← siteAt start
  let span ← spanFrom start
  pure ⟨span, .forEach iterable ⟨site, { names := [name.text] }, nodes⟩⟩

/-! ## Definitions -/

/-- Operators that can be defined as methods. -/
def operatorMethods : List String :=
  ["+", "-", "*", "/", "%", "**", "==", "!=", "<", "<=", ">", ">=", "<=>", "<<", ">>", "===", "!",
    "&", "^", "~", "-@", "+@"]

/-- Whether a token is an `=` that stands right at the token before it. -/
def isSetterMark (t : Token) : Bool := t.isOperator "=" && !t.spaced

/-- The name of a method that begins with the given token. -/
def methodName (t : Token) : Parse String :=
  match t.kind with
  | .identifier | .constant => do
    if ← accept isSetterMark then pure (t.text ++ "=") else pure t.text
  | .operator =>
    if operatorMethods.contains t.text then pure t.text else expected (some t) "method name"
  | .separator =>
    if t.text == "|" then pure "|"
    else if t.text == "[" then do
      let _ ← expect (·.isSeparator "]") "']'"
      if ← accept isSetterMark then pure "[]=" else pure "[]"
    else expected (some t) "method name"
  | _ => expected (some t) "method name"

/-- The node that a name before a dot stands for in a method's head. -/
def targetOf (t : Token) : Node :=
  ⟨t.span,
    if t.kind == .constant then .constant t.text
    else if t.text == "self" then .selfRef
    else .localVar t.text⟩

/-- The target of a method, if it has one, and the token that begins its name. -/
def methodHead : Parse (Option Node × Token) := do
  let first ← nextRequired
  if first.kind == .identifier || first.kind == .constant then do
    if ← accept (fun t => t.isSeparator "." && !t.spaced) then do
      let name ← nextRequired
      pure (some (targetOf first), name)
    else pure (none, first)
  else pure (none, first)

/-- What stands behind `def`. -/
def define (r : Rules) (n : Nat) (start : Span) : Parse Node := do
  let (target, first) ← methodHead
  let name ← methodName first
  let params ← methodParams n
  let nodes ← bodyUntil r n "end"
  let site ← siteAt start
  let span ← spanFrom start
  pure ⟨span, .define target ⟨site, name, params, nodes⟩⟩

/-- A class path behind its first name. -/
def pathRest : Nat → Node → Parse Node
  | 0, _ => exhausted
  | n + 1, path => do
    if ← accept (fun t => t.isSeparator "::" && !t.spaced) then do
      let name ← expect (·.kind == .constant) "class or module name"
      pathRest n ⟨path.span.join name.span, .scoped path name.text⟩
    else pure path

/-- `Name`, or `Outer::Name`. -/
def classPath (n : Nat) : Parse Node := do
  let first ← expect (·.kind == .constant) "class or module name"
  pathRest n ⟨first.span, .constant first.text⟩

/-- The superclass of a class, if it names one. -/
def superclass (r : Rules) : Parse (Option Node) := do
  if ← acceptOperator "<" then do
    let node ← r .value
    pure (some node)
  else pure none

/-- What stands behind `class`. -/
def openClass (r : Rules) (n : Nat) (start : Span) : Parse Node := do
  let path ← classPath n
  let parent ← superclass r
  let nodes ← bodyUntil r n "end"
  let span ← spanFrom start
  pure ⟨span, .openClass path parent nodes⟩

/-- What stands behind `module`. -/
def openModule (r : Rules) (n : Nat) (start : Span) : Parse Node := do
  let path ← classPath n
  let nodes ← bodyUntil r n "end"
  let span ← spanFrom start
  pure ⟨span, .openModule path nodes⟩

/-! ## Names -/

/-- Words that begin nothing. -/
def reservedWords : List String :=
  ["then", "do", "end", "else", "elsif", "in", "and", "or", "when", "rescue", "ensure"]

/-- A name that is no keyword: a call if arguments or a block follow, else a variable. -/
def nameOrCall (r : Rules) (n : Nat) (t : Token) : Parse Node := do
  let isCall ← match ← peek with
    | none => pure false
    | some following =>
      if following.isSeparator "(" || following.isSeparator "\x7b" then pure true
      else if following.isKeyword "do" then do pure !(← get).noDo
      else pure (startsArgs following)
  if isCall then callRest r n none t.text t.span else pure ⟨t.span, .localVar t.text⟩

/-- A form that spans from `start` up to the last token taken. -/
def spanning (start : Span) (part : Parse Form) : Parse Node := do
  let form ← part
  let span ← spanFrom start
  pure ⟨span, form⟩

/-- What begins with an identifier. -/
def word (r : Rules) (n : Nat) (t : Token) : Parse Node :=
  match t.text with
  | "nil" => pure ⟨t.span, .nil⟩
  | "true" => pure ⟨t.span, .boolean true⟩
  | "false" => pure ⟨t.span, .boolean false⟩
  | "self" => pure ⟨t.span, .selfRef⟩
  | "if" => conditional r n t.span false
  | "unless" => conditional r n t.span true
  | "while" => loop r n t.span true
  | "until" => loop r n t.span false
  | "for" => forEach r n t.span
  | "def" => define r n t.span
  | "class" => openClass r n t.span
  | "module" => openModule r n t.span
  | "begin" => spanning t.span do return .sequence (← bodyUntil r n "end")
  | "not" => do
    let operand ← r .expression
    pure ⟨t.span.join operand.span, .send operand "!" []⟩
  | "yield" => spanning t.span do return .yieldTo (← optionalArgs r n)
  | "super" => spanning t.span do return .superCall (← optionalArgs r n)
  | "return" => spanning t.span do return .returnWith (← optionalValue r)
  | "next" => spanning t.span do return .nextWith (← optionalValue r)
  | "break" => pure ⟨t.span, .breakOut⟩
  | "redo" => pure ⟨t.span, .redo⟩
  | "retry" => pure ⟨t.span, .retry⟩
  | text => if reservedWords.contains text then unexpected (some t) else nameOrCall r n t

/-- What begins with a separator. -/
def bracket (r : Rules) (n : Nat) (t : Token) : Parse Node :=
  match t.text with
  | "(" => parenthesized r n t.span
  | "[" => spanning t.span do return .array (← listUntil r n "]")
  | "\x7b" => hashLiteral r n t.span
  | "::" => do
    let name ← expect (·.kind == .constant) "constant name"
    pure ⟨t.span.join name.span, .constant name.text⟩
  | _ => unexpected (some t)

/-- A term without what is chained to it. -/
def primary (r : Rules) (n : Nat) : Parse Node := do
  let t ← nextRequired
  match t.kind with
  | .integer | .float => do
    let form ← number t false
    pure ⟨t.span, form⟩
  | .string => pure ⟨t.span, .str t.text⟩
  | .symbol => pure ⟨t.span, .symbol t.text⟩
  | .instanceVar => pure ⟨t.span, .instanceVar t.text⟩
  | .classVar => pure ⟨t.span, .classVar t.text⟩
  | .globalVar => pure ⟨t.span, .globalVar t.text⟩
  | .constant => do
    if ← parenFollows then callRest r n none t.text t.span else pure ⟨t.span, .constant t.text⟩
  | .identifier => word r n t
  | .separator => bracket r n t
  | .operator => if t.text == "->" then lambda r n t.span else unexpected (some t)
  | .endOfLine => unexpected (some t)

end Spinel.Grammar
