import Mathlib.Data.List.ReduceOption
import Spinel.Session
import Spinel.Proofs.Grammar.Oblivious

/-!
# Sources that are read line by line

Reading a source from bytes line by line gives what the text of its leading valid lines gives, in
all that can be seen: the program or the error (`Grammar.parse_ofReader`), and the value, failure,
report and state after running it (`reader_agrees_with_text`).
-/

namespace Spinel

/-! ## Lines of bytes -/

/-- The lines of some bytes, each up to and including its line feed. -/
def byteLines : List UInt8 → List (List UInt8)
  | [] => []
  | b :: bs =>
    if b = 10 then [b] :: byteLines bs
    else
      match byteLines bs with
      | [] => [[b]]
      | line :: lines => (b :: line) :: lines

/-- The text of a line, if it is valid UTF-8. -/
def decodeLine (line : List UInt8) : Option String := String.fromUTF8? ⟨line.toArray⟩

/-- The longest run of leading lines that are valid, as texts. -/
def validLines (lines : List (List UInt8)) : List String :=
  ((lines.map decodeLine).takeWhile Option.isSome).reduceOption

/-- The text of the longest run of leading lines that are valid. -/
def leadingText (bytes : ByteArray) : String := String.join (validLines (byteLines bytes.toList))

theorem byteLines_of_forall_ne {line : List UInt8} (h : ∀ b ∈ line, b ≠ 10) (hne : line ≠ []) :
    byteLines line = [line] := by
  induction line with
  | nil => exact absurd rfl hne
  | cons b bs ih =>
    rw [byteLines, if_neg (h b List.mem_cons_self)]
    cases bs with
    | nil => rfl
    | cons b' bs => rw [ih (fun b hb => h b (List.mem_cons_of_mem _ hb)) (by simp)]

theorem byteLines_append {line : List UInt8} (h : ∀ b ∈ line, b ≠ 10) (bs : List UInt8) :
    byteLines (line ++ 10 :: bs) = (line ++ [10]) :: byteLines bs := by
  induction line with
  | nil => simp [byteLines]
  | cons b line ih =>
    rw [List.cons_append, byteLines, if_neg (h b List.mem_cons_self),
      ih fun b hb => h b (List.mem_cons_of_mem _ hb)]
    rfl

theorem validLines_nil : validLines [] = [] := rfl

theorem validLines_cons_of_some {line : List UInt8} {text : String}
    (h : decodeLine line = some text) (lines : List (List UInt8)) :
    validLines (line :: lines) = text :: validLines lines := by
  simp [validLines, h]

theorem validLines_cons_of_none {line : List UInt8} (h : decodeLine line = none)
    (lines : List (List UInt8)) : validLines (line :: lines) = [] := by
  simp [validLines, h]

/-- Reading on adds the valid lines among the current one and those ahead. -/
theorem decodeLines_go (bs : List UInt8) (line : Array UInt8) (text : String)
    (h : ∀ b ∈ line.toList, b ≠ 10) :
    decodeLines.go bs line text =
      text ++ String.join (validLines (byteLines (line.toList ++ bs))) := by
  induction bs generalizing line text with
  | nil =>
    rw [decodeLines.go, List.append_nil]
    by_cases hline : line.toList = []
    · rw [hline, Array.toList_eq_nil_iff.1 hline]
      rfl
    · have hdecode : String.fromUTF8? ⟨line⟩ = decodeLine line.toList := rfl
      rw [byteLines_of_forall_ne h hline, hdecode]
      cases hvalid : decodeLine line.toList with
      | none => rw [validLines_cons_of_none hvalid, String.join_nil, Option.getD_none]
      | some valid =>
        rw [validLines_cons_of_some hvalid, String.join_cons, validLines_nil, String.join_nil,
          String.append_empty, Option.getD_some]
  | cons b bs ih =>
    rw [decodeLines.go]
    split
    · next hb =>
      subst hb
      have hdecode : String.fromUTF8? ⟨line.push 10⟩ = decodeLine (line.toList ++ [10]) := by
        rw [decodeLine, ← Array.toList_push]
      rw [byteLines_append h, hdecode]
      cases hvalid : decodeLine (line.toList ++ [10]) with
      | none => rw [validLines_cons_of_none hvalid, String.join_nil, String.append_empty]
      | some valid =>
        rw [validLines_cons_of_some hvalid, String.join_cons, ← String.append_assoc]
        exact ih #[] (text ++ valid) (by simp)
    · next hb =>
      rw [ih]
      · simp
      · simpa [or_imp, forall_and, hb] using h

theorem decodeLines_eq_leadingText (bytes : ByteArray) : decodeLines bytes = leadingText bytes := by
  rw [decodeLines, decodeLines_go _ _ _ (by simp), leadingText]
  simp

namespace Grammar

theorem proper_ofReader (text : String) : (Stream.ofReader text).Proper := ⟨rfl, .inl rfl⟩

/-- A text that is read line by line is the program, or has the error, that it is or has as a whole.
In the end the lines that a report quotes are available. -/
theorem parse_ofReader (source : SourceId) (text : String) :
    (parse source (.ofReader text)).1 = (parse source (.ofText text)).1 ∧
      (parse source (.ofText text)).2 = text ∧
      match (parse source (.ofText text)).1 with
      | .program _ => (parse source (.ofReader text)).2 = text
      | .syntaxError e =>
        Failure.sourceLine (parse source (.ofReader text)).2 e.position.line.toNat =
          Failure.sourceLine text e.position.line.toNat
      | .exhausted => True := by
  generalize hn : bound text.toList.length = n
  have hrun := learns_commands (rules_oblivious n) n (.start source (.ofReader text))
    ⟨proper_ofReader text, by simp⟩ (fun token (h : token ∈ []) => by cases h)
  have hwhole : (Stream.ofReader text).whole = text.toList := rfl
  have hfulltext : ∀ c : Cursor, c.lexer.stream.whole = text.toList →
      c.full.lexer.stream.availableText = text := fun c hc => by
    change String.ofList c.lexer.stream.full.available = text
    rw [Stream.full_available, hc, String.ofList_toList]
  have hreader : program source (.ofReader text) =
      commands (rules n) n (.start source (.ofReader text)) := by rw [← hn]; rfl
  have htext : program source (.ofText text) =
      commands (rules n) n (Cursor.start source (.ofReader text)).full := by rw [← hn]; rfl
  unfold parse
  rw [hreader, htext]
  cases hx : commands (rules n) n (.start source (.ofReader text)) with
  | ok body c =>
    rw [hx] at hrun
    obtain ⟨-, hext, hend, hfull⟩ := hrun
    rw [hfull]
    have hall : c.lexer.stream.whole.length ≤ c.lexer.stream.horizon := hend none List.mem_cons_self
    refine ⟨rfl, hfulltext c hext.whole, ?_⟩
    change String.ofList c.lexer.stream.available = text
    rw [Stream.available_of_length_le hall, hext.whole]
    exact String.ofList_toList
  | error e c =>
    rw [hx] at hrun
    obtain ⟨hext, hexplains, hfull⟩ := hrun
    rw [hfull]
    cases e with
    | exhausted => exact ⟨rfl, hfulltext c hext.whole, trivial⟩
    | syntaxError e =>
      refine ⟨rfl, hfulltext c hext.whole, ?_⟩
      have hline := Stream.sourceLine_availableText hexplains
      rw [hext.whole] at hline
      exact hline.trans (congrArg (Failure.sourceLine · e.position.line.toNat) String.ofList_toList)

end Grammar

/-! ## Running -/

/-- The report of a syntax error quotes no more than the line of the error. -/
theorem Failure.leaving_ofSyntaxError {e : SyntaxError} {code code' : String}
    (h : sourceLine code e.position.line.toNat = sourceLine code' e.position.line.toNat)
    (label : String) :
    (ofSyntaxError e).leaving label code = (ofSyntaxError e).leaving label code' := by
  have hquote : quote (some code) (.point e.position) = quote (some code') (.point e.position) := by
    have hline : (Span.point e.position).start.line = e.position.line := rfl
    unfold quote
    rw [Option.bind_some, Option.bind_some, hline, h]
  have hreport : ∀ code, ((ofSyntaxError e).inFile label).reportText code =
      ((ofSyntaxError e).inFile label).heading ++ ((ofSyntaxError e).inFile label).summary ++
        String.join [passage code (.point e.position, .parsing)] := fun _ => rfl
  have hfile : ((ofSyntaxError e).inFile label).file = some label := rfl
  unfold leaving
  simp only [hfile, if_true, render, hreport, passage, hquote]

/-- A source that is read line by line runs as its text does. -/
theorem Interp.runStream_ofReader (interp : Interp) (text label : String) :
    interp.runStream (.ofReader text) label = interp.runText text label := by
  unfold Interp.runText Interp.runStream
  refine congrArg (Run.newSource label >>= ·) (funext fun source => ?_)
  obtain ⟨hparsed, htext, hcode⟩ := Grammar.parse_ofReader source text
  generalize Grammar.parse source (.ofReader text) = read at hparsed hcode ⊢
  generalize Grammar.parse source (.ofText text) = whole at hparsed htext hcode ⊢
  obtain ⟨parsed, code⟩ := read
  obtain ⟨parsed', code'⟩ := whole
  dsimp only at hparsed htext hcode
  subst hparsed htext
  cases parsed with
  | program nodes => rw [hcode]
  | syntaxError e =>
    exact congrArg (fun f => throw (Halt.failed f)) (Failure.leaving_ofSyntaxError hcode label)
  | exhausted => rfl

/-- A source that is read line by line from bytes is the same program, or has the same error, and
runs in the same way as the text of its leading valid lines. -/
theorem reader_agrees_with_text (bytes : ByteArray) :
    (∀ source : SourceId, (Grammar.parse source (.ofReader (decodeLines bytes))).1 =
      (Grammar.parse source (.ofText (leadingText bytes))).1) ∧
    ∀ (label : String) (w : World), Session.runReader (.ofReader (decodeLines bytes)) label w =
      Session.runSource (leadingText bytes) label w := by
  rw [decodeLines_eq_leadingText]
  refine ⟨fun source => (Grammar.parse_ofReader source _).1, fun label w => ?_⟩
  exact congrFun (Session.evaluator.runStream_ofReader (leadingText bytes) label) w

end Spinel
