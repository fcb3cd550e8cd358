import Spinel.Fault

/-!
# Failures

A fault on its way out of a program: what was being done where, innermost first, the source that
the innermost place belongs to, and the report, which is written once, at the outermost source that
the failure leaves first.
-/

namespace Spinel

/-- What was being done when a fault passed. -/
inductive Action where
  | parsing
  | lookingUp
  | calling
  | assigning
  | definingClass
  | definingMethod
  | yielding
  | evaluating
deriving DecidableEq

/-- The word for an action. -/
def Action.name : Action → String
  | .parsing => "parsing"
  | .lookingUp => "looking up"
  | .calling => "calling"
  | .assigning => "assigning"
  | .definingClass => "defining class"
  | .definingMethod => "defining method"
  | .yielding => "yielding"
  | .evaluating => "evaluating"

/-- A fault and what is known about where it arose. -/
structure Failure where
  fault : Fault
  /-- The places it passed, innermost first. -/
  trace : List (Span × Action) := []
  /-- The label of the source of the innermost place. -/
  file : Option String := none
  /-- The report, once it is written. -/
  report : Option String := none

namespace Failure

/-- A syntax error as a failure. -/
def ofSyntaxError (e : SyntaxError) : Failure :=
  { fault := .syntaxFault e.fault, trace := [(.point e.position, .parsing)] }

/-- The failure passes a place. -/
def tag (f : Failure) (span : Span) (action : Action) : Failure :=
  { f with trace := f.trace ++ [(span, action)] }

/-- Name a place for a failure that has none yet. -/
def tagFirst (f : Failure) (span : Span) (action : Action) : Failure :=
  if f.trace.isEmpty then f.tag span action else f

/-- Name the source, unless an inner one is named. -/
def inFile (f : Failure) (label : String) : Failure :=
  { f with file := some (f.file.getD label) }

/-- The characters behind the first `n` line feeds, if there are that many. -/
def afterLines : Nat → List Char → List Char
  | 0, cs => cs
  | _ + 1, [] => []
  | n + 1, c :: cs => if c = '\n' then afterLines n cs else afterLines (n + 1) cs

/-- The first line, without the line feed, or the carriage return and line feed, that end it. -/
def firstLine : List Char → List Char
  | [] => []
  | '\n' :: _ => []
  | '\r' :: '\n' :: _ => []
  | c :: cs => c :: firstLine cs

/-- The line with a number, if the text has so many. An empty rest behind the last line feed is no
line. -/
def sourceLine (code : String) (n : Nat) : Option (List Char) :=
  match afterLines n code.toList with
  | [] => none
  | cs => some (firstLine cs)

/-- The line of a place and carets under the stretch of it, at least one. -/
def quote (code : Option String) (span : Span) : String :=
  match code.bind (sourceLine · span.start.line.toNat) with
  | none => ""
  | some line =>
    let column := min span.start.column.toNat line.length
    let carets := max 1 (min span.length (line.length - column))
    "\n" ++ String.ofList line ++ "\n" ++ SyntaxError.repeated column ' ' ++
      SyntaxError.repeated carets '^'

/-- A place counted from one, as `line:column`. -/
def place (span : Span) : String :=
  let line := span.start.line + 1
  let column := span.start.column + 1
  s!"{line}:{column}"

/-- The class of the error and its cause. -/
def summary (f : Failure) : String := f.fault.kind.name ++ ": " ++ f.fault.message

/-- The label of the source and the innermost place. -/
def heading (f : Failure) : String :=
  match f.file with
  | none => ""
  | some label =>
    match f.trace with
    | [] => label ++ ": "
    | (span, _) :: _ => label ++ ":" ++ place span ++ ": "

/-- One place of the trace: its line, and what was being done. -/
def passage (code : Option String) (step : Span × Action) : String :=
  quote code step.1 ++ "\nwhile " ++ step.2.name ++ " at " ++ place step.1

/-- The whole report, with lines of the source if it is given. -/
def reportText (f : Failure) (code : Option String) : String :=
  f.heading ++ f.summary ++ String.join (f.trace.map (passage code))

/-- Write the report, unless it is written. -/
def render (f : Failure) (code : Option String) : Failure :=
  { f with report := some (f.report.getD (f.reportText code)) }

/-- The report, or a summary if there is none. -/
def text (f : Failure) : String := f.report.getD f.summary

end Failure

end Spinel
