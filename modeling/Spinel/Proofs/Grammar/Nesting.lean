import Spinel.Proofs.Grammar.Concatenation
import Spinel.Proofs.Grammar.Enclosure
import Spinel.Proofs.Grammar.Levels

/-!
# Programs inside programs

A text that is a program can be put between the header of a control structure or a definition and
its `end`. It makes a program of one node, whose statements are those of the text, moved to where
they stand (`parse_wrap`).

The header is read as it is read alone: what that leads to is computed, and repeated in the larger
text. The text then stands behind the header as `Enclosure` has it. At the end of the larger text
every level of operators, the trailing conditions and the commands end without a further token
(`Begins.statement`, `Begins.commands`).
-/

namespace Spinel.Grammar

/-! ## What ends with the text -/

/-- The node is in `Q`, and no token is left. -/
def Finished (Q : Node → Prop) (node : Node) (d : Cursor) : Prop := Q node ∧ AtEnd d.lexer

section Finished

variable {β : Type} {Q : Node → Prop} {r : Rules} {node : Node} {d : Cursor}

theorem AtEnd.yields_next {f : Option Token → Parse β} {R : β → Cursor → Prop}
    (h : AtEnd d.lexer) (hf : ∀ d', AtEnd d'.lexer → Yields (f none) d' R) :
    Yields (Grammar.next >>= f) d R := by
  obtain ⟨l, hnext, hend, -⟩ := h.next
  exact .step hnext (hf _ hend)

theorem Finished.next {f : Option Token → Parse Node} (h : Finished Q node d)
    (hf : f none = pure node) : Yields (Grammar.next >>= f) d (Finished Q) := by
  refine h.2.yields_next fun d' hd' => ?_
  rw [hf]
  exact .of_ok rfl ⟨h.1, hd'⟩

theorem Finished.chain (h : Finished Q node d) (n : Nat) :
    Yields (Grammar.chain r n node) d (Finished Q) := by
  cases n with
  | zero => exact .inl ⟨d, rfl⟩
  | succ n => exact h.next rfl

theorem Finished.leftAssoc {operand : Parse Node} {level : Level} (h : Finished Q node d)
    (n : Nat) : Yields (Grammar.leftAssoc operand level n node) d (Finished Q) := by
  cases n with
  | zero => exact .inl ⟨d, rfl⟩
  | succ n => exact h.next rfl

theorem Finished.modifiers (h : Finished Q node d) (n : Nat) :
    Yields (Grammar.modifiers r n node) d (Finished Q) := by
  cases n with
  | zero => exact .inl ⟨d, rfl⟩
  | succ n => exact h.next rfl

theorem yields_layered {operand : Parse Node} (h : Yields operand d (Finished Q)) (n : Nat)
    (levels : List Level) : Yields (layered operand n levels) d (Finished Q) := by
  induction levels with
  | nil => exact h
  | cons level tighter ih => exact ih.bind fun left d' hleft => hleft.leftAssoc n

theorem yields_commands_end (h : AtEnd d.lexer) (n : Nat) :
    Yields (commands r n) d fun nodes _ => nodes = [] := by
  rcases n with _ | _ | n
  · exact .inl ⟨d, rfl⟩
  · exact .inl ⟨d, rfl⟩
  · rw [commands_succ, commandsAfter, skipTerminators, skipWhile_succ_bind]
    refine h.yields_next fun d₁ hd₁ => ?_
    dsimp only
    rw [commandsHere, peek_bind]
    exact hd₁.yields_next fun d₂ _ => .of_ok rfl rfl

end Finished

/-! ## A word that begins a program -/

section Word

variable {Q : Node → Prop} {t : Token} {d d' : Cursor}

theorem last_of_next (h : next d = .ok (some t) d') : d'.last = t.span := by
  unfold next at h
  split at h
  · cases h
  · cases h
    rfl
  · cases h

theorem nextRequired_of_next (h : next d = .ok (some t) d') : nextRequired d = .ok t d' := by
  rw [nextRequired, bind_of_ok h]
  rfl

/-- A token that was taken and given back comes next, and leads to the same place. -/
theorem next_of_push (h : d.last = t.span) :
    ∃ taken passed, next (d.gaveBack t) = .ok (some t) { d with taken, passed } := by
  refine ⟨t :: d.taken.erase t, ((d.gaveBack t).took t d.lexer).passed, ?_⟩
  rw [h]
  rfl

/-- What the word `t` begins, read from behind it with any record, ends with the text. -/
def Begins (Q : Node → Prop) (t : Token) (d : Cursor) : Prop :=
  ∀ taken passed n, Yields (word (rules n) n t) { d with taken, passed } (Finished Q)

theorem Begins.operand (h : Begins Q t d') (ht : t.kind = .identifier)
    (hnext : next d = .ok (some t) d') (n : Nat) :
    Yields (rules n .operand) d (Finished Q) := by
  cases n with
  | zero => exact .inl ⟨d, rfl⟩
  | succ n =>
    have hoperator : ∀ text, t.isOperator text = false := by
      intro text
      unfold Token.isOperator
      rw [ht]
      rfl
    obtain ⟨taken, passed, hagain⟩ := next_of_push (last_of_next hnext)
    have hprimary : Yields (primary (rules n) n) (d'.gaveBack t) (Finished Q) := by
      unfold primary
      refine .step (nextRequired_of_next hagain) ?_
      rw [ht]
      exact h taken passed n
    change Yields (Grammar.operand (rules n) n) d (Finished Q)
    unfold Grammar.operand
    refine .step (nextRequired_of_next hnext) ?_
    simp only [hoperator, Bool.or_self, Bool.false_eq_true, if_false]
    exact .step (push_apply t d') (hprimary.bind fun term d₁ hterm => hterm.chain n)

theorem Begins.expression (h : Begins Q t d') (ht : t.kind = .identifier)
    (hnext : next d = .ok (some t) d') (n : Nat) :
    Yields (rules n .expression) d (Finished Q) := by
  rcases n with _ | _ | n
  · exact .inl ⟨d, rfl⟩
  · exact .inl ⟨d, rfl⟩
  · have hvalue : Yields (value (rules n) n) d (Finished Q) := by
      rw [value_eq_layered]
      exact yields_layered (h.operand ht hnext n) n levels
    exact hvalue.bind fun left d₁ hleft => hleft.next rfl

theorem Begins.statement (h : Begins Q t d') (ht : t.kind = .identifier) (hnot : t.text ≠ "not")
    (hnext : next d = .ok (some t) d') (n : Nat) :
    Yields (rules n .statement) d (Finished Q) := by
  rcases n with _ | _ | _ | n
  · exact .inl ⟨d, rfl⟩
  · exact .inl ⟨d, rfl⟩
  · exact .inl ⟨d, rfl⟩
  · have hkeyword : t.isKeyword "not" = false := by
      unfold Token.isKeyword
      rw [beq_eq_false_iff_ne.2 hnot, Bool.and_false]
    have hnegation : Yields (negation (rules n)) d (Finished Q) := by
      unfold negation
      refine .step (nextRequired_of_next hnext) ?_
      simp only [hkeyword, Bool.false_eq_true, if_false]
      obtain ⟨taken, passed, hagain⟩ := next_of_push (last_of_next hnext)
      have hbegins : Begins Q t { d' with taken, passed } := h
      exact .step (push_apply t d') (hbegins.expression ht hagain n)
    have hclause : Yields (clause (rules (n + 1)) (n + 1)) d (Finished Q) :=
      hnegation.bind fun left d₁ hleft => hleft.leftAssoc (n + 1)
    exact hclause.bind fun node d₁ hnode => hnode.modifiers (n + 2)

theorem Begins.commands (h : Begins Q t d') (ht : t.kind = .identifier) (hnot : t.text ≠ "not")
    (hnext : next d = .ok (some t) d') (n m : Nat) :
    Yields (commands (rules n) m) d fun nodes _ => ∃ node, nodes = [node] ∧ Q node := by
  rcases m with _ | _ | m
  · exact .inl ⟨d, rfl⟩
  · exact .inl ⟨d, rfl⟩
  · rw [commands_succ, commandsAfter, skipTerminators, skipWhile_succ_bind]
    refine .step hnext ?_
    dsimp only
    rw [isTerminator_of_identifier ht, commandsHere]
    simp only [Bool.false_eq_true, if_false]
    refine (push_peek t _).yields fun taken passed => .step (push_apply t _) ?_
    obtain ⟨taken', passed', hagain⟩ :=
      next_of_push (d := { d' with taken, passed }) (last_of_next hnext :)
    have hbegins : Begins Q t { d' with taken := taken', passed := passed' } := h
    refine .bind (hbegins.statement ht hnot hagain n) fun node d₁ hnode => ?_
    rw [endOfCommand_bind]
    refine hnode.2.yields_next fun d₂ hd₂ => ?_
    refine .bind (yields_commands_end hd₂ (m + 1)) fun nodes d₃ hnodes => ?_
    rw [hnodes]
    exact .of_ok rfl ⟨node, rfl, hnode.1⟩

end Word

/-! ## Behind a header -/

section Nested

variable {source : SourceId} {header text : String} {nodes : List Node} {c d : Cursor}

/-- The first text is followed by the second, a line feed and `end`. -/
def Embedding.nested (source : SourceId) (header text : String) : Embedding :=
  .behind source header text (some "end".toList)

/-- A body behind a header, whatever the header's end asks for. -/
theorem yields_nested (hparse : (parse source (.ofText text)).1 = .program nodes)
    (hbeside : (Embedding.first source header (text ++ "\n" ++ "end")).Beside false c d)
    (hend : AtEnd c.lexer) {g : Unit → Parse (List Node × Token)}
    (hg : ∀ k limit n limit', Mirrors ((Embedding.nested source header text).Beside false)
      (commandsAfter (rules k) limit n) (skipTerminators limit' >>= g)
      ((Embedding.nested source header text).Encloses (Embedding.nested source header text).Ended))
    (limit : Nat) :
    Yields (skipTerminators limit >>= g) d fun out d' =>
      out.1 = nodes.map (Node.moved (.behind header)) ∧
        (Embedding.nested source header text).Ended out.2 d' := by
  cases limit with
  | zero => exact .inl ⟨d, rfl⟩
  | succ limit =>
    obtain ⟨l, hnext, -⟩ := hend.next
    have hanswers := hbeside.next_at_end hend hnext
    generalize hd : next d = result at hanswers
    rw [skipTerminators, skipWhile_succ_bind]
    cases hanswers with
    | none _ _ htail => cases htail
    | @feed d₁ span spaced hP =>
      -- The line feed behind the header is a terminator, and the text begins behind it.
      have hinside : (Embedding.nested source header text).Beside false
          (.start source (.ofText text)) d₁ := by
        refine beside_behind hP ?_
        rw [String.toList_append, String.toList_append, List.append_assoc]
        rfl
      obtain ⟨n, c', hc'⟩ := commandsAfter_of_parse hparse
      refine .step hd ((hg (n + 1) n n limit _ _ hinside nodes c' hc').mono ?_)
      intro out d' hout
      exact ⟨hout.1.trans (movedAll_eq_map _ nodes), hout.2⟩

theorem yields_nested_body (hparse : (parse source (.ofText text)).1 = .program nodes)
    (hbeside : (Embedding.first source header (text ++ "\n" ++ "end")).Beside false c d)
    (hend : AtEnd c.lexer) (n m : Nat) :
    Yields (bodyUntil (rules n) m "end") d fun out d' =>
      out = nodes.map (Node.moved (.behind header)) ∧
        ∃ t, (Embedding.nested source header text).Ended t d' := by
  cases m with
  | zero => exact .inl ⟨d, rfl⟩
  | succ m =>
    have hclosers : ∀ t, opensNothing t = false → isCloser ["end"] t = false :=
      fun t ht => isCloser_of_opening ht (by decide)
    have htail : (Embedding.nested source header text).tail ≠ none := Option.some_ne_none _
    have hclose : Closes (.nested source header text) false (rules n) ["end"] _ :=
      closes_end rfl rfl
    have hbody := yields_nested hparse hbeside hend (fun k limit n' limit' =>
      mirrors_bodyAfter (rules_repeat k n) (rules_refuse k .statement) htail hclosers hclose
        (mirrors_body (rules_repeat k n) (rules_refuse k .statement) htail hclosers hclose n' m)
        limit limit') m
    rw [bodyUntil, body_succ]
    exact hbody.bind fun out d' hout => .of_ok rfl ⟨hout.1, out.2, hout.2⟩

theorem yields_nested_keyword (hparse : (parse source (.ofText text)).1 = .program nodes)
    (hbeside : (Embedding.first source header (text ++ "\n" ++ "end")).Beside false c d)
    (hend : AtEnd c.lexer) (closers : List String) (hclose : closers.contains "end" = true)
    (hclosers : ∀ text ∈ closers, text ∈ ["end", "else", "elsif", "then", "do"])
    (keyword : String) (hkeyword : keyword ∈ ["then", "do"]) (limit n m : Nat) :
    Yields (skipTerminators limit >>= fun _ => acceptKeyword keyword >>= fun _ =>
      body (rules n) closers m) d fun out d' =>
      out.1 = nodes.map (Node.moved (.behind header)) ∧
        (Embedding.nested source header text).Ended out.2 d' := by
  refine yields_nested hparse hbeside hend (fun k limit n' limit' => ?_) limit
  exact mirrors_body_keyword (rules_repeat k n) (rules_refuse k .statement) rfl hclose hclosers
    hkeyword limit limit' n' m

theorem Embedding.Ended.spanFrom {t : Token} (h : (Embedding.nested source header text).Ended t d)
    {length : Nat} (hlength : length ≤ header.length) :
    Grammar.spanFrom ⟨.start, length⟩ d =
      .ok ⟨.start, header.length + text.length + 5⟩ d := by
  have hstop : d.last.stop = header.length + text.length + 5 := by
    rw [h.last]
    simp only [Span.stop, Position.next_offset, Embedding.nested, Embedding.behind, Shift.behind,
      Shift.move, Moves.moveBy, Position.advance_offset, Position.start, String.length_toList]
    omega
  have hspan : Span.join ⟨.start, length⟩ d.last = ⟨.start, header.length + text.length + 5⟩ := by
    unfold Span.join
    rw [hstop]
    simp only [Span.stop, Position.start, Span.mk.injEq, true_and]
    omega
  exact congrArg (fun span => EStateM.Result.ok span d) hspan

theorem Embedding.Ended.node {t : Token} (h : (Embedding.nested source header text).Ended t d)
    {length : Nat} (hlength : length ≤ header.length) (form : Form) :
    Yields (Grammar.spanFrom ⟨.start, length⟩ >>= fun span => pure ⟨span, form⟩) d
      (Finished (· = ⟨⟨.start, header.length + text.length + 5⟩, form⟩)) :=
  .step (h.spanFrom hlength) (.of_ok rfl ⟨rfl, h.atEnd⟩)

end Nested

/-! ## Headers -/

/-- An end without the record. -/
def bareEnd {α : Type} : EStateM.Result Stop Cursor α → EStateM.Result Stop Cursor α
  | .ok a c => .ok a { c with taken := [], passed := [] }
  | .error e c => .error e c

theorem bareEnd_eq_ok {α : Type} {result : EStateM.Result Stop Cursor α} {a : α} {c : Cursor}
    (h : bareEnd result = .ok a c) :
    ∃ c', result = .ok a c' ∧ c = { c' with taken := [], passed := [] } := by
  cases result with
  | ok b c' =>
    cases h
    exact ⟨c', rfl, rfl⟩
  | error e c' => cases h

/-- A part of a header goes in the larger text as it goes in the header alone. -/
theorem Repeats.step {α β : Type} [Moves α] {e : Embedding} {flag : Bool} {x y : Parse α}
    {c c' d : Cursor} {a : α} {g : α → Parse β} {Q : β → Cursor → Prop} (h : Repeats e flag x y)
    (hbeside : e.Beside flag c d) (hx : bareEnd (x c) = .ok a c')
    (hg : ∀ d', e.Beside flag c' d' → Yields (g (e.shift.move a)) d' Q) : Yields (y >>= g) d Q := by
  obtain ⟨c₁, hc₁, rfl⟩ := bareEnd_eq_ok hx
  refine (h c d hbeside a c₁ hc₁).bind fun b d' hsame => ?_
  obtain ⟨rfl, hsame⟩ := hsame
  exact hg d' ⟨hsame.source, hsame.noDo, hsame.last, hsame.lexer⟩

/-- A cursor behind the beginning of a text. -/
def Cursor.reading (source : SourceId) (before rest : String) (last beforeLast : Span) : Cursor :=
  ⟨⟨⟨before.toList.reverse, rest.toList, Position.start.advance before.toList,
    (before ++ rest).length⟩, []⟩, source, last, beforeLast, false, [], []⟩

theorem atEnd_reading (source : SourceId) (before : String) (last beforeLast : Span) :
    AtEnd (Cursor.reading source before "" last beforeLast).lexer :=
  ⟨rfl, rfl⟩

/-- What a program can stand in. -/
inductive Wrapper where
  | sequence
  | method
  | openClass
  | openModule
  | branch
  | loop

namespace Wrapper

/-- The line before the program. -/
def header : Wrapper → String
  | .sequence => "begin"
  | .method => "def f"
  | .openClass => "class A"
  | .openModule => "module M"
  | .branch => "if true"
  | .loop => "while true"

/-- The form around the statements of the program. -/
def form (source : SourceId) (body : List Node) : Wrapper → Form
  | .sequence => .sequence body
  | .method => .define none ⟨⟨source, 0⟩, "f", {}, body⟩
  | .openClass => .openClass ⟨⟨⟨6, 0, 6⟩, 1⟩, .constant "A"⟩ none body
  | .openModule => .openModule ⟨⟨⟨7, 0, 7⟩, 1⟩, .constant "M"⟩ body
  | .branch => .branch ⟨⟨⟨3, 0, 3⟩, 4⟩, .boolean true⟩ body []
  | .loop => .loop true ⟨⟨⟨6, 0, 6⟩, 4⟩, .boolean true⟩ body

/-- The program between the header and `end`. -/
def wrap (w : Wrapper) (text : String) : String := w.header ++ "\n" ++ text ++ "\n" ++ "end"

/-- The node that it makes. -/
def node (w : Wrapper) (source : SourceId) (text : String) (nodes : List Node) : Node :=
  ⟨⟨.start, w.header.length + text.length + 5⟩,
    w.form source (nodes.map (Node.moved (.behind w.header)))⟩

end Wrapper

section Headers

variable {source : SourceId} {text : String} {nodes : List Node} {d : Cursor}

theorem conditional_eq (r : Rules) (n : Nat) (start : Span) :
    conditional r n start false = (do
      let condition ← r .clause
      let out ← skipTerminators n >>= fun _ => acceptKeyword "then" >>= fun _ =>
        body r ["elsif", "else", "end"] n
      let other ← otherBranch r n out.2
      let span ← spanFrom start
      pure ⟨span, .branch condition out.1 other⟩) := by
  simp only [conditional, thenKeyword, bind_assoc, pure_bind, Bool.false_eq_true, if_false]

theorem loop_eq (r : Rules) (n : Nat) (start : Span) (wanted : Bool) :
    loop r n start wanted = (do
      let condition ← withNoDo true (r .clause)
      let out ← skipTerminators n >>= fun _ => acceptKeyword "do" >>= fun _ => body r ["end"] n
      let span ← spanFrom start
      pure ⟨span, .loop wanted condition out.1⟩) := by
  simp only [loop, loopHeader, bodyUntil, bind_assoc, pure_bind]

/-- The header's first word is read as it is read alone, and begins the only node. -/
theorem parse_of_yields_word {header : String} {t : Token} {c : Cursor} {node : Node}
    (h : ∀ d, (Embedding.first source header (text ++ "\n" ++ "end")).Beside false c d →
      ∀ n, Yields (word (rules n) n t) d (Finished (· = node)))
    (hnext : bareEnd (next (.start source (.ofText header))) = .ok (some t) c)
    (ht : t.kind = .identifier) (hnot : t.text ≠ "not") :
    (parse source (.ofText (header ++ "\n" ++ (text ++ "\n" ++ "end")))).1 = .program [node] := by
  obtain ⟨c₁, hc₁, rfl⟩ := bareEnd_eq_ok hnext
  have hanswers := (beside_first source header (text ++ "\n" ++ "end")).next hc₁
  generalize hd :
    next (.start source (.ofText (header ++ "\n" ++ (text ++ "\n" ++ "end")))) = result at hanswers
  cases hanswers with
  | @token t d htook =>
    have hbegins : Begins (· = node) t d := fun taken passed =>
      h { d with taken, passed } ⟨htook.source, htook.noDo, htook.last, .inl htook.inside⟩
    have hmove : Shift.zero.move t = t :=
      congrArg (fun span => { t with span }) (Shift.zero_move t.span)
    have hword : next (.start source (.ofText (header ++ "\n" ++ (text ++ "\n" ++ "end")))) =
        .ok (some t) d := hd.trans (congrArg (EStateM.Result.ok · d) (congrArg some hmove))
    have hcommands := fun n => hbegins.commands ht hnot hword n n
    obtain ⟨nodes, c', hprogram, node', rfl, rfl⟩ := program_of_yields (hcommands _)
    exact parse_eq_program.2 ⟨c', hprogram⟩

variable (hparse : (parse source (.ofText text)).1 = .program nodes)

include hparse

theorem yields_sequence
    (hbeside : (Embedding.first source "begin" (text ++ "\n" ++ "end")).Beside false
      (.reading source "begin" "" ⟨.start, 5⟩ (.point .start)) d) (n : Nat) :
    Yields (word (rules n) n ⟨.identifier, "begin", ⟨.start, 5⟩, false⟩) d
      (Finished (· = Wrapper.sequence.node source text nodes)) := by
  have hbody := yields_nested_body hparse hbeside (atEnd_reading ..) n n
  change Yields (spanning ⟨.start, 5⟩ (bodyUntil (rules n) n "end" >>= fun out =>
    pure (.sequence out))) d _
  rw [spanning, bind_assoc]
  refine hbody.bind fun out d' hout => ?_
  obtain ⟨rfl, t, hended⟩ := hout
  exact hended.node (Nat.le_refl 5) _

theorem yields_method
    (hbeside : (Embedding.first source "def f" (text ++ "\n" ++ "end")).Beside false
      (.reading source "def" " f" ⟨.start, 3⟩ (.point .start)) d) (n : Nat) :
    Yields (word (rules n) n ⟨.identifier, "def", ⟨.start, 3⟩, false⟩) d
      (Finished (· = Wrapper.method.node source text nodes)) := by
  have hhead : bareEnd (methodHead (.reading source "def" " f" ⟨.start, 3⟩ (.point .start))) =
      .ok (none, ⟨.identifier, "f", ⟨⟨4, 0, 4⟩, 1⟩, true⟩)
        (.reading source "def f" "" ⟨⟨4, 0, 4⟩, 1⟩ ⟨.start, 3⟩) := by cbv
  have hname : bareEnd (methodName ⟨.identifier, "f", ⟨⟨4, 0, 4⟩, 1⟩, true⟩
      (.reading source "def f" "" ⟨⟨4, 0, 4⟩, 1⟩ ⟨.start, 3⟩)) =
      .ok "f" (.reading source "def f" "" ⟨⟨4, 0, 4⟩, 1⟩ ⟨.start, 3⟩) := by cbv
  have hparams :
      bareEnd (methodParams 1 (.reading source "def f" "" ⟨⟨4, 0, 4⟩, 1⟩ ⟨.start, 3⟩)) =
      .ok {} (.reading source "def f" "" ⟨⟨4, 0, 4⟩, 1⟩ ⟨.start, 3⟩) := by cbv
  change Yields (define (rules n) n ⟨.start, 3⟩) d _
  unfold define
  refine repeats_methodHead.step hbeside hhead fun d₁ hbeside₁ => ?_
  refine (repeats_methodName _).step hbeside₁ hname fun d₂ hbeside₂ => ?_
  refine repeats_methodParams.step hbeside₂ hparams fun d₃ hbeside₃ => ?_
  refine (yields_nested_body hparse hbeside₃ (atEnd_reading ..) n n).bind fun out d₄ hout => ?_
  obtain ⟨rfl, t, hended⟩ := hout
  have hsite : siteAt ⟨.start, 3⟩ d₄ = .ok ⟨source, 0⟩ d₄ :=
    congrArg (fun source => EStateM.Result.ok (Site.mk source 0) d₄) hended.source
  exact .step hsite (hended.node (by decide : 3 ≤ "def f".length) _)

theorem yields_openClass
    (hbeside : (Embedding.first source "class A" (text ++ "\n" ++ "end")).Beside false
      (.reading source "class" " A" ⟨.start, 5⟩ (.point .start)) d) (n : Nat) :
    Yields (word (rules n) n ⟨.identifier, "class", ⟨.start, 5⟩, false⟩) d
      (Finished (· = Wrapper.openClass.node source text nodes)) := by
  have hpath : bareEnd (classPath 1 (.reading source "class" " A" ⟨.start, 5⟩ (.point .start))) =
      .ok ⟨⟨⟨6, 0, 6⟩, 1⟩, .constant "A"⟩
        (.reading source "class A" "" ⟨⟨6, 0, 6⟩, 1⟩ ⟨.start, 5⟩) := by cbv
  have hparent : bareEnd
      (superclass (rules 1) (.reading source "class A" "" ⟨⟨6, 0, 6⟩, 1⟩ ⟨.start, 5⟩)) =
      .ok none (.reading source "class A" "" ⟨⟨6, 0, 6⟩, 1⟩ ⟨.start, 5⟩) := by cbv
  change Yields (openClass (rules n) n ⟨.start, 5⟩) d _
  unfold openClass
  refine repeats_classPath.step hbeside hpath fun d₁ hbeside₁ => ?_
  refine (repeats_superclass (rules_repeat 1 n)).step hbeside₁ hparent fun d₂ hbeside₂ => ?_
  refine (yields_nested_body hparse hbeside₂ (atEnd_reading ..) n n).bind fun out d₃ hout => ?_
  obtain ⟨rfl, t, hended⟩ := hout
  exact hended.node (by decide : 5 ≤ "class A".length) _

theorem yields_openModule
    (hbeside : (Embedding.first source "module M" (text ++ "\n" ++ "end")).Beside false
      (.reading source "module" " M" ⟨.start, 6⟩ (.point .start)) d) (n : Nat) :
    Yields (word (rules n) n ⟨.identifier, "module", ⟨.start, 6⟩, false⟩) d
      (Finished (· = Wrapper.openModule.node source text nodes)) := by
  have hpath : bareEnd (classPath 1 (.reading source "module" " M" ⟨.start, 6⟩ (.point .start))) =
      .ok ⟨⟨⟨7, 0, 7⟩, 1⟩, .constant "M"⟩
        (.reading source "module M" "" ⟨⟨7, 0, 7⟩, 1⟩ ⟨.start, 6⟩) := by cbv
  change Yields (openModule (rules n) n ⟨.start, 6⟩) d _
  unfold openModule
  refine repeats_classPath.step hbeside hpath fun d₁ hbeside₁ => ?_
  refine (yields_nested_body hparse hbeside₁ (atEnd_reading ..) n n).bind fun out d₂ hout => ?_
  obtain ⟨rfl, t, hended⟩ := hout
  exact hended.node (by decide : 6 ≤ "module M".length) _

theorem yields_branch
    (hbeside : (Embedding.first source "if true" (text ++ "\n" ++ "end")).Beside false
      (.reading source "if" " true" ⟨.start, 2⟩ (.point .start)) d) (n : Nat) :
    Yields (word (rules n) n ⟨.identifier, "if", ⟨.start, 2⟩, false⟩) d
      (Finished (· = Wrapper.branch.node source text nodes)) := by
  have hcondition : bareEnd
      (rules 6 .clause (.reading source "if" " true" ⟨.start, 2⟩ (.point .start))) =
      .ok ⟨⟨⟨3, 0, 3⟩, 4⟩, .boolean true⟩
        (.reading source "if true" "" ⟨⟨3, 0, 3⟩, 4⟩ ⟨.start, 2⟩) := by cbv
  change Yields (conditional (rules n) n ⟨.start, 2⟩ false) d _
  rw [conditional_eq]
  refine ((rules_repeat 6 n).repeats .clause).step hbeside hcondition fun d₁ hbeside₁ => ?_
  have hbody := yields_nested_keyword hparse hbeside₁ (atEnd_reading ..)
    ["elsif", "else", "end"] rfl (by decide) "then" (by decide) n n n
  refine hbody.bind fun out d₂ hout => ?_
  obtain ⟨hnodes, hended⟩ := hout
  rw [hnodes]
  have hother : otherBranch (rules n) n out.2 = pure [] := by
    unfold otherBranch
    rw [hended.text]
    rfl
  rw [hother, pure_bind]
  exact hended.node (by decide : 2 ≤ "if true".length) _

theorem yields_loop
    (hbeside : (Embedding.first source "while true" (text ++ "\n" ++ "end")).Beside false
      (.reading source "while" " true" ⟨.start, 5⟩ (.point .start)) d) (n : Nat) :
    Yields (word (rules n) n ⟨.identifier, "while", ⟨.start, 5⟩, false⟩) d
      (Finished (· = Wrapper.loop.node source text nodes)) := by
  have hcondition : bareEnd (withNoDo true (rules 6 .clause)
      (.reading source "while" " true" ⟨.start, 5⟩ (.point .start))) =
      .ok ⟨⟨⟨6, 0, 6⟩, 4⟩, .boolean true⟩
        (.reading source "while true" "" ⟨⟨6, 0, 6⟩, 4⟩ ⟨.start, 5⟩) := by cbv
  change Yields (loop (rules n) n ⟨.start, 5⟩ true) d _
  rw [loop_eq]
  have hclause := (rules_repeat (e := .first source "while true" (text ++ "\n" ++ "end")) 6 n)
  refine (repeats_withNoDo (hclause.repeats .clause)).step hbeside hcondition
    fun d₁ hbeside₁ => ?_
  have hbody := yields_nested_keyword hparse hbeside₁ (atEnd_reading ..)
    ["end"] rfl (by decide) "do" (by decide) n n n
  refine hbody.bind fun out d₂ hout => ?_
  obtain ⟨hnodes, hended⟩ := hout
  rw [hnodes]
  exact hended.node (by decide : 5 ≤ "while true".length) _

end Headers

/-- A program between a header and `end` is a program of one node, which has the statements of the
program in it, with all places moved by the characters of the header and by its line. -/
theorem parse_wrap {source : SourceId} {text : String} {nodes : List Node} (w : Wrapper)
    (h : (parse source (.ofText text)).1 = .program nodes) :
    (parse source (.ofText (w.wrap text))).1 = .program [w.node source text nodes] := by
  have htext : w.wrap text = w.header ++ "\n" ++ (text ++ "\n" ++ "end") := by
    simp only [Wrapper.wrap, String.append_assoc]
  rw [htext]
  cases w with
  | sequence => exact parse_of_yields_word (fun _ => yields_sequence h) (by cbv) rfl (by decide)
  | method => exact parse_of_yields_word (fun _ => yields_method h) (by cbv) rfl (by decide)
  | openClass => exact parse_of_yields_word (fun _ => yields_openClass h) (by cbv) rfl (by decide)
  | openModule => exact parse_of_yields_word (fun _ => yields_openModule h) (by cbv) rfl (by decide)
  | branch => exact parse_of_yields_word (fun _ => yields_branch h) (by cbv) rfl (by decide)
  | loop => exact parse_of_yields_word (fun _ => yields_loop h) (by cbv) rfl (by decide)

/-- A comment and a line feed of its own at the end of the text. -/
theorem parse_wrap_sample :
    Wrapper.branch.wrap "x = y # why\n" = "if true\nx = y # why\n\nend" ∧
      (parse ⟨"main", 0⟩ (.ofText "x = y # why\n")).1 = .program
        [⟨⟨⟨0, 0, 0⟩, 5⟩, .assign ⟨⟨⟨0, 0, 0⟩, 1⟩, .localVar "x"⟩
          ⟨⟨⟨4, 0, 4⟩, 1⟩, .localVar "y"⟩⟩] ∧
      (parse ⟨"main", 0⟩ (.ofText (Wrapper.branch.wrap "x = y # why\n"))).1 = .program
        [⟨⟨⟨0, 0, 0⟩, 24⟩, .branch ⟨⟨⟨3, 0, 3⟩, 4⟩, .boolean true⟩
          [⟨⟨⟨8, 1, 0⟩, 5⟩, .assign ⟨⟨⟨8, 1, 0⟩, 1⟩, .localVar "x"⟩
            ⟨⟨⟨12, 1, 4⟩, 1⟩, .localVar "y"⟩⟩] []⟩] := by
  exact ⟨by decide, parse_commented, parse_wrap .branch parse_commented⟩

end Spinel.Grammar
