import Spinel.Grammar.Primary

/-!
# Operators

From the tightest to the loosest: signs and negation before an operand, seven levels of binary
operators, `&&`, `||`, assignment, `not`, `and` and `or`, and trailing conditions.
-/

namespace Spinel.Grammar

/-- Operands chained by operators of one level, grouped to the left. `operator?` says which
operators those are and how they combine two operands. -/
def leftAssoc (operand : Parse Node) (operator? : Token → Option (Node → Node → Form)) :
    Nat → Node → Parse Node
  | 0, _ => exhausted
  | n + 1, left => do
    match ← next with
    | none => pure left
    | some t =>
      match operator? t with
      | none => do
        push t
        pure left
      | some combine => do
        skipNewlines n
        let right ← operand
        leftAssoc operand operator? n ⟨left.span.join right.span, combine left right⟩

/-! ## Operands -/

/-- A sign, a negation, or a term. -/
def operand (r : Rules) (n : Nat) : Parse Node := do
  let t ← nextRequired
  if t.isOperator "-" then do
    let following ← nextRequired
    if !following.spaced && (following.kind == .integer || following.kind == .float) then do
      let form ← number following true
      chain r n ⟨t.span.join following.span, form⟩
    else do
      push following
      let node ← r .operand
      pure ⟨t.span.join node.span, .send node "-@" []⟩
  else if t.isOperator "+" then r .operand
  else if t.isOperator "!" || t.isOperator "~" then do
    let node ← r .operand
    pure ⟨t.span.join node.span, .send node t.text []⟩
  else do
    push t
    let term ← primary r n
    chain r n term

/-! ## Binary operators -/

/-- The binary operators from the loosest level to the tightest. -/
def binaryLevels : List (List String) :=
  [["..", "...", "==", "===", "<=>", "!=", "<", ">", "<=", ">="],
    ["|", "^"],
    ["&"],
    ["<<", ">>"],
    ["+", "-"],
    ["*", "/", "%"],
    ["**"]]

/-- How a binary operator combines its operands: two dots make a range, all else is a call. -/
def combine (op : String) (left right : Node) : Form :=
  if op == ".." then .range left right false
  else if op == "..." then .range left right true
  else .send left op [right]

/-- The operators of a level. -/
def levelOperator? (operators : List String) (t : Token) : Option (Node → Node → Form) :=
  if (t.kind == .operator || t.kind == .separator) && operators.contains t.text then
    some (combine t.text)
  else none

/-- Operands combined by the operators of the given levels. -/
def binary (r : Rules) (n : Nat) : List (List String) → Parse Node
  | [] => r .operand
  | operators :: tighter => do
    let left ← binary r n tighter
    leftAssoc (binary r n tighter) (levelOperator? operators) n left

/-! ## Short circuits, assignment, `not`, `and`, `or` -/

def andOperator? (t : Token) : Option (Node → Node → Form) :=
  if t.isOperator "&&" then some .both else none

def orOperator? (t : Token) : Option (Node → Node → Form) :=
  if t.isOperator "||" then some .either else none

/-- Operands of `||`. -/
def conjunction (r : Rules) (n : Nat) : Parse Node := do
  let left ← binary r n binaryLevels
  leftAssoc (binary r n binaryLevels) andOperator? n left

def value (r : Rules) (n : Nat) : Parse Node := do
  let left ← conjunction r n
  leftAssoc (conjunction r n) orOperator? n left

/-- The operator that an assignment applies first: none for `=` itself. -/
def assignOperator? (t : Token) : Option (Option String) :=
  if t.kind == .operator then
    match t.text with
    | "=" => some none
    | "+=" => some (some "+")
    | "-=" => some (some "-")
    | "*=" => some (some "*")
    | "/=" => some (some "/")
    | "**=" => some (some "**")
    | _ => none
  else none

/-- An expression or an assignment, which groups to the right. -/
def expression (r : Rules) (n : Nat) : Parse Node := do
  let left ← r .value
  match ← next with
  | none => pure left
  | some t =>
    match assignOperator? t with
    | none => do
      push t
      pure left
    | some operator =>
      if !left.form.isAssignable then failAt t.span.start .invalidAssignment
      else do
        skipNewlines n
        let right ← r .expression
        let span := left.span.join right.span
        let assigned := match operator with
          | none => right
          | some op => ⟨span, .send left op [right]⟩
        pure ⟨span, .assign left assigned⟩

def negation (r : Rules) : Parse Node := do
  let t ← nextRequired
  if t.isKeyword "not" then do
    let node ← r .negation
    pure ⟨t.span.join node.span, .send node "!" []⟩
  else do
    push t
    r .expression

def wordOperator? (t : Token) : Option (Node → Node → Form) :=
  if t.isKeyword "and" then some .both else if t.isKeyword "or" then some .either else none

/-- Expressions combined by `and` and `or`, which are on one level. -/
def clause (r : Rules) (n : Nat) : Parse Node := do
  let left ← r .negation
  leftAssoc (r .negation) wordOperator? n left

/-! ## Trailing conditions -/

/-- What a trailing keyword makes of the statement before it and the condition behind it. -/
def modifier? (t : Token) : Option (Node → Node → Form) :=
  if t.kind == .identifier then
    match t.text with
    | "if" => some fun node condition => .branch condition [node] []
    | "unless" => some fun node condition => .branch condition [] [node]
    | "while" => some fun node condition => .loop true condition [node]
    | "until" => some fun node condition => .loop false condition [node]
    | _ => none
  else none

/-- A statement with all trailing conditions. -/
def modifiers (r : Rules) : Nat → Node → Parse Node
  | 0, _ => exhausted
  | n + 1, node => do
    match ← next with
    | none => pure node
    | some t =>
      match modifier? t with
      | none => do
        push t
        pure node
      | some modify => do
        let condition ← r .clause
        modifiers r n ⟨node.span.join condition.span, modify node condition⟩

/-- A statement. -/
def statement (r : Rules) (n : Nat) : Parse Node := do
  let node ← r .clause
  modifiers r n node

end Spinel.Grammar
