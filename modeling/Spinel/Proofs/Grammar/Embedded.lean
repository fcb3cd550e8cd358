import Spinel.Proofs.Grammar.Mirroring

/-!
# Every rule does the same in a larger text

One statement for each function of the grammar, in the order of the grammar's modules, and from
them `rules_repeat` by induction on the depth of the rules in the smaller text. The rules in the
larger text may have any other depth.
-/

namespace Spinel.Grammar

/-- The rules `r'` do in the larger text what the rules `r` do in the smaller one, and need a token
to begin with. -/
structure Rules.Repeat (e : Embedding) (r r' : Rules) : Prop where
  repeats : ∀ {flag : Bool} (rule : Rule), Repeats e flag (r rule) (r' (e.shift.move rule))
  needs : ∀ rule, NeedsToken (r rule)

variable {e : Embedding} {flag : Bool} {r r' : Rules} {n m : Nat}

/-! ## Statement lists and parameters -/

theorem needs_body (closers : List String) (n : Nat) : NeedsToken (body r closers n) := by
  cases n with
  | zero => exact Fails.exhausted.needsToken
  | succ n => exact .skipTerminators (.next Fails.expected.needsToken)

theorem repeats_body (hr : r.Repeat e r') (closers : List String) (n m : Nat) :
    Repeats e flag (body r closers n) (body r' closers m) := by
  induction n generalizing m with
  | zero => exact .fails Fails.exhausted
  | succ n ih =>
    cases m with
    | zero => exact .exhausted_right
    | succ m =>
      unfold body
      refine .skipTerminators (.next Fails.expected.needsToken) ?_
      refine .next (fun t => ?_) (.fails .expected) fun _ _ => .fails .expected
      refine .ite rfl (.took (.pure rfl)) (.push ?_)
      refine .bind (hr.repeats .statement) fun node => ?_
      refine .endOfCommandOrEnd ?_ fun _ => .past (needs_body closers n).bind
      exact .bind (ih m) fun ⟨nodes, closer⟩ => .pure rfl

theorem repeats_bodyUntil (hr : r.Repeat e r') (closer : String) :
    Repeats e flag (bodyUntil r n closer) (bodyUntil r' m closer) :=
  .bind (repeats_body hr [closer] n m) fun _ => .pure rfl

theorem repeats_param (params : Params) : Repeats e flag (param params) (param params) := by
  refine .nextRequired fun t => .ite rfl (.took ?_) ?_
  · exact .expect (fun _ => rfl) fun name => .pure rfl
  · exact .ite rfl (.took (.pure rfl)) (.fails .expected)

theorem needs_paramsUntil (closer : String) (n : Nat) (params : Params) :
    NeedsToken (paramsUntil closer n params) := by
  cases n with
  | zero => exact Fails.exhausted.needsToken
  | succ n => exact NeedsToken.nextRequired.bind.bind

theorem repeats_paramsUntil (closer : String) (n m : Nat) (params : Params) :
    Repeats e flag (paramsUntil closer n params) (paramsUntil closer m params) := by
  induction n generalizing m params with
  | zero => exact .fails Fails.exhausted
  | succ n ih =>
    cases m with
    | zero => exact .exhausted_right
    | succ m =>
      unfold paramsUntil
      refine .bind (repeats_param params) fun params => ?_
      refine .skipNewlines (.next Fails.expected.needsToken) ?_
      refine .next (fun t => ?_) (.fails .expected) fun _ _ => .fails .expected
      refine .ite rfl (.took ?_) (.ite rfl (.took (.pure rfl)) (.fails .expected))
      exact .skipNewlines (needs_paramsUntil closer n params) (ih m params)

theorem repeats_paramList (closer : String) :
    Repeats e flag (paramList n closer) (paramList m closer) := by
  refine .skipNewlines (.accept (needs_paramsUntil closer n {})) ?_
  refine .accept (fun _ => rfl) (fun _ _ => rfl) fun found => ?_
  exact .ite rfl (.pure rfl) (repeats_paramsUntil closer n m {})

theorem repeats_bareParams (n m : Nat) (params : Params) :
    Repeats e flag (bareParams n params) (bareParams m params) := by
  induction n generalizing m params with
  | zero => exact .fails Fails.exhausted
  | succ n ih =>
    cases m with
    | zero => exact .exhausted_right
    | succ m =>
      unfold bareParams
      refine .bind (repeats_param params) fun params => ?_
      refine .accept (fun _ => rfl) (fun _ _ => rfl) fun comma => ?_
      exact .ite rfl (ih m params) (.pure rfl)

theorem repeats_methodParams : Repeats e flag (methodParams n) (methodParams m) := by
  refine .next (fun t => ?_) (.pure rfl) fun _ _ => ?_
  · refine .ite rfl (.took (repeats_paramList _)) (.push ?_)
    exact .ite rfl (repeats_bareParams n m {}) (.pure rfl)
  · exact .otherwise rfl (.pushFeed (.otherwise rfl (.pure rfl)))

theorem repeats_lambdaParams : Repeats e flag (lambdaParams n) (lambdaParams m) := by
  refine .next (fun t => ?_) (.pure rfl) fun _ _ => ?_
  · refine .ite rfl (.took (repeats_paramList _)) (.push ?_)
    exact .ite rfl (repeats_bareParams n m {}) (.pure rfl)
  · exact .otherwise rfl (.pushFeed (.otherwise rfl (.pure rfl)))

theorem repeats_blockParams : Repeats e flag (blockParams n) (blockParams m) := by
  refine .next (fun t => ?_) (.pure rfl) fun _ _ => ?_
  · exact .ite rfl (.took (.pure rfl))
      (.ite rfl (.took (repeats_paramList _)) (.push (.pure rfl)))
  · exact .otherwise rfl (.otherwise rfl (.pushFeed (.pure rfl)))

/-! ## Calls -/

theorem repeats_afterComma {others others' : Parse Args} (hneeds : NeedsToken others)
    (h : Repeats e flag others others') :
    Repeats e flag (afterComma n others) (afterComma m others') := by
  refine .accept (fun _ => rfl) (fun _ _ => rfl) fun comma => ?_
  exact .ite rfl (.skipNewlines hneeds h) (.pure rfl)

theorem pairsArg_move (pairs : List (Node × Node)) :
    pairsArg (e.shift.move pairs) = e.shift.move (pairsArg pairs) := by
  cases pairs with
  | nil => rfl
  | cons pair rest =>
    obtain ⟨key, value⟩ := pair
    have hlast : (((e.shift.move rest).getLast?.map Prod.snd).getD (e.shift.move value)) =
        e.shift.move ((rest.getLast?.map Prod.snd).getD value) := by
      have hmap : e.shift.move rest = rest.map (movedPair e.shift) := movedPairs_eq_map _ rest
      rw [hmap, List.getLast?_map]
      cases rest.getLast? with
      | none => rfl
      | some pair => obtain ⟨_, last⟩ := pair; rfl
    have hspan := e.shift.move_joined_nodes key ((rest.getLast?.map Prod.snd).getD value)
      (.hash ((key, value) :: rest))
    rw [← hlast] at hspan
    exact congrArg (fun node => [node]) hspan.symm

theorem repeats_blockOpener : Repeats e flag blockOpener blockOpener := by
  refine .next (fun t => ?_) (.pure rfl) fun _ _ => ?_
  · refine .ite rfl (.took (.pure rfl)) ?_
    refine .noDo (fun _ _ h => h.noDo.2.trans h.noDo.1.symm) fun c d hdo => ?_
    refine .ite ?_ (.took (.pure rfl)) (.push (.pure rfl))
    rw [hdo]
    rfl
  · exact .otherwise rfl (.getRight fun _ => .otherwise rfl (.pushFeed (.pure rfl)))

theorem repeats_parenFollows : Repeats e flag parenFollows parenFollows :=
  .peek (fun _ => .pure rfl) (.pure rfl) fun _ _ => .pure rfl

section Rules

variable (hr : r.Repeat e r')

include hr

theorem repeats_argument {others others' : Parse Args} (hneeds : NeedsToken others)
    (h : Repeats e flag others others') :
    Repeats e flag (argument r n others) (argument r' m others') := by
  refine .bind (hr.repeats .negation) fun arg => ?_
  refine .accept (fun _ => rfl) (fun _ _ => rfl) fun arrow => .ite rfl ?_ ?_
  · refine .skipNewlines (hr.needs .negation).bind ?_
    refine .bind (hr.repeats .negation) fun value => ?_
    exact .bind (repeats_afterComma hneeds h) fun rest => .pure rfl
  · exact .bind (repeats_afterComma hneeds h) fun rest => .pure rfl

theorem needs_argsLoop (n : Nat) : NeedsToken (argsLoop r n) := by
  cases n with
  | zero => exact Fails.exhausted.needsToken
  | succ n => exact .next (hr.needs .negation).bind

theorem repeats_argsLoop (n m : Nat) : Repeats e flag (argsLoop r n) (argsLoop r' m) := by
  induction n generalizing m with
  | zero => exact .fails Fails.exhausted
  | succ n ih =>
    cases m with
    | zero => exact .exhausted_right
    | succ m =>
      have hargument :
          Repeats e flag (argument r n (argsLoop r n)) (argument r' m (argsLoop r' m)) :=
        repeats_argument hr (needs_argsLoop hr n) (ih m)
      unfold argsLoop
      refine .next (fun t => ?_) hargument fun _ _ => .past (hr.needs .negation).bind
      exact .ite rfl (.took (.bind (hr.repeats .operand) fun node => .pure rfl)) (.push hargument)

theorem needs_commandArgs : NeedsToken (commandArgs r n) :=
  (needs_argsLoop hr n).bind

theorem repeats_commandArgs : Repeats e flag (commandArgs r n) (commandArgs r' m) := by
  refine .bind (repeats_argsLoop hr n m) fun args => .pure ?_
  have hpositional := e.shift.move_append args.positional (pairsArg args.pairs)
  rw [← pairsArg_move] at hpositional
  exact congrArg (fun nodes => (nodes, e.shift.move args.block)) hpositional.symm

theorem repeats_parenArgs : Repeats e flag (parenArgs r n) (parenArgs r' m) := by
  refine repeats_withNoDo ?_
  refine .skipNewlines (.accept (needs_commandArgs hr).bind) ?_
  refine .accept (fun _ => rfl) (fun _ _ => rfl) fun closed => .ite rfl (.pure rfl) ?_
  refine .bind (repeats_commandArgs hr) fun args => ?_
  refine .skipNewlines NeedsToken.expect.bind ?_
  exact .expect (fun _ => rfl) fun _ => .pure rfl

theorem needs_itemsUntil (closer : String) (n : Nat) : NeedsToken (itemsUntil r closer n) := by
  cases n with
  | zero => exact Fails.exhausted.needsToken
  | succ n => exact (hr.needs .negation).bind

theorem repeats_itemsUntil (closer : String) (n m : Nat) :
    Repeats e flag (itemsUntil r closer n) (itemsUntil r' closer m) := by
  induction n generalizing m with
  | zero => exact .fails Fails.exhausted
  | succ n ih =>
    cases m with
    | zero => exact .exhausted_right
    | succ m =>
      unfold itemsUntil
      refine .bind (hr.repeats .negation) fun item => ?_
      refine .skipNewlines (.next Fails.expected.needsToken) ?_
      refine .next (fun t => ?_) (.fails .expected) fun _ _ => .fails .expected
      refine .ite rfl (.took ?_) (.ite rfl (.took (.pure rfl)) (.fails .expected))
      refine .skipNewlines (.accept (needs_itemsUntil hr closer n).bind) ?_
      refine .accept (fun _ => rfl) (fun _ _ => rfl) fun closed => .ite rfl (.pure rfl) ?_
      exact .bind (ih m) fun items => .pure rfl

theorem repeats_listUntil (closer : String) :
    Repeats e flag (listUntil r n closer) (listUntil r' m closer) := by
  refine repeats_withNoDo ?_
  refine .skipNewlines (.accept (needs_itemsUntil hr closer n)) ?_
  refine .accept (fun _ => rfl) (fun _ _ => rfl) fun closed => ?_
  exact .ite rfl (.pure rfl) (repeats_itemsUntil hr closer n m)

theorem repeats_blockLiteral : Repeats e flag (blockLiteral r n) (blockLiteral r' m) := by
  refine .bind repeats_blockOpener fun opener => ?_
  cases opener with
  | none => exact .pure rfl
  | some opener =>
    obtain ⟨span, closer⟩ := opener
    refine .bind (repeats_siteAt span) fun site => repeats_withNoDo ?_
    refine .bind repeats_blockParams fun params => ?_
    exact .bind (repeats_bodyUntil hr closer) fun nodes => .pure rfl

theorem repeats_callArgs : Repeats e flag (callArgs r n) (callArgs r' m) := by
  refine .next (fun t => ?_) (.pure rfl) fun _ _ => ?_
  · refine .ite rfl (.took (repeats_parenArgs hr)) (.push ?_)
    exact .ite rfl (repeats_commandArgs hr) (.pure rfl)
  · exact .otherwise rfl (.pushFeed (.otherwise rfl (.pure rfl)))

theorem repeats_callRest (receiver : Option Node) (name : String) (nameSpan : Span) :
    Repeats e flag (callRest r n receiver name nameSpan)
      (callRest r' m (e.shift.move receiver) name (e.shift.move nameSpan)) := by
  have hspan : ((e.shift.move receiver).map Node.span).getD (e.shift.move nameSpan) =
      e.shift.move ((receiver.map Node.span).getD nameSpan) := by
    cases receiver with
    | none => rfl
    | some node => exact e.shift.span_move node
  unfold callRest
  rw [hspan]
  refine .bind (repeats_callArgs hr) fun ⟨args, given⟩ => ?_
  cases given with
  | none =>
    refine .bind (repeats_blockLiteral hr) fun block => ?_
    exact .bind (repeats_spanFrom _) fun span => .pure rfl
  | literal block | value node =>
    refine .bind (.pure rfl) fun block => ?_
    exact .bind (repeats_spanFrom _) fun span => .pure rfl

theorem repeats_memberOf (term : Node) (scope : Bool) :
    Repeats e flag (memberOf r n term scope) (memberOf r' m (e.shift.move term) scope) := by
  have hcall : ∀ name : Token, Repeats e flag (callRest r n (some term) name.text name.span)
      (callRest r' m (some (e.shift.move term)) name.text (e.shift.move name.span)) :=
    fun name => repeats_callRest hr (some term) name.text name.span
  refine .skipNewlines NeedsToken.nextRequired.bind ?_
  refine .nextRequired fun name => .ite rfl (.fails .expected) (.ite rfl (.took ?_) (.took ?_))
  · refine .bind repeats_parenFollows fun paren => .ite rfl (hcall name) (.pure ?_)
    exact (e.shift.move_joined term name.span (.scoped term name.text)).symm
  · exact hcall name

theorem repeats_chain (n m : Nat) (term : Node) :
    Repeats e flag (chain r n term) (chain r' m (e.shift.move term)) := by
  induction n generalizing m term with
  | zero => exact .fails Fails.exhausted
  | succ n ih =>
    cases m with
    | zero => exact .exhausted_right
    | succ m =>
      unfold chain
      refine .next (fun t => ?_) (.pure rfl) fun _ _ => ?_
      · refine .ite rfl (.took ?_) (.ite rfl (.took ?_) (.push (.pure rfl)))
        · exact .bind (repeats_memberOf hr term _) fun term => ih m term
        · refine .bind (repeats_listUntil hr "]") fun args => ?_
          rw [Shift.span_move]
          exact .bind (repeats_spanFrom _) fun span => ih m ⟨span, .index term args⟩
      · exact .otherwise rfl (.otherwise rfl (.pushFeed (.pure rfl)))

theorem repeats_optionalArgs : Repeats e flag (optionalArgs r n) (optionalArgs r' m) :=
  .bind (repeats_callArgs hr) fun _ => .pure rfl

theorem repeats_optionalValue : Repeats e flag (optionalValue r) (optionalValue r') := by
  refine .peek (fun t => ?_) (.pure rfl) fun _ _ => .otherwise rfl (.pure rfl)
  exact .ite rfl (.bind (hr.repeats .expression) fun node => .pure rfl) (.pure rfl)

end Rules

/-! ## Terms -/

theorem repeats_number (t : Token) (negative : Bool) :
    Repeats e flag (number t negative) (number (e.shift.move t) negative) := by
  obtain ⟨kind, text, span, spaced⟩ := t
  refine .ite rfl (.pure rfl) ?_
  simp only [Shift.move, Moves.moveBy]
  generalize int64? _ = value?
  cases value? with
  | none => exact .fails .failAt
  | some value => exact .pure rfl

theorem repeats_methodName (t : Token) :
    Repeats e flag (methodName t) (methodName (e.shift.move t)) := by
  have hsetter : ∀ marked plain : String, Repeats e flag
      (do if ← accept isSetterMark then pure marked else pure plain)
      (do if ← accept isSetterMark then pure marked else pure plain) :=
    fun marked plain => .accept (fun _ => rfl) (fun _ _ => rfl) fun mark =>
      .ite rfl (.pure rfl) (.pure rfl)
  obtain ⟨kind, text, span, spaced⟩ := t
  cases kind with
  | identifier | constant => exact hsetter (text ++ "=") text
  | operator => exact .ite rfl (.pure rfl) (.fails .expected)
  | separator =>
    refine .ite rfl (.pure rfl) (.ite rfl ?_ (.fails .expected))
    exact .expect (fun _ => rfl) fun _ => hsetter "[]=" "[]"
  | integer | float | string | symbol | instanceVar | classVar | globalVar | endOfLine =>
    exact .fails .expected

theorem targetOf_move (t : Token) : targetOf (e.shift.move t) = e.shift.move (targetOf t) := by
  have hform : ∀ p q : Bool,
      (if p then Form.constant t.text else if q then .selfRef else .localVar t.text) =
        e.shift.move
          (if p then Form.constant t.text else if q then .selfRef else .localVar t.text) := by
    intro p q
    cases p <;> cases q <;> rfl
  exact congrArg (Node.mk (e.shift.move t.span)) (hform (t.kind == .constant) (t.text == "self"))

theorem repeats_methodHead : Repeats e flag methodHead methodHead := by
  refine .nextRequired fun first => .ite rfl (.took ?_) (.took (.pure rfl))
  refine .accept (fun _ => rfl) (fun _ _ => rfl) fun dot => .ite rfl ?_ (.pure rfl)
  refine .nextRequired fun name => .took (.pure ?_)
  rw [targetOf_move]
  rfl

theorem repeats_pathRest (n m : Nat) (path : Node) :
    Repeats e flag (pathRest n path) (pathRest m (e.shift.move path)) := by
  induction n generalizing m path with
  | zero => exact .fails Fails.exhausted
  | succ n ih =>
    cases m with
    | zero => exact .exhausted_right
    | succ m =>
      unfold pathRest
      refine .accept (fun _ => rfl) (fun _ _ => rfl) fun scope => .ite rfl ?_ (.pure rfl)
      refine .expect (fun _ => rfl) fun name => ?_
      have hpath := e.shift.move_joined path name.span (.scoped path name.text)
      exact hpath ▸ ih m ⟨path.span.join name.span, .scoped path name.text⟩

theorem repeats_classPath : Repeats e flag (classPath n) (classPath m) :=
  .expect (fun _ => rfl) fun first => repeats_pathRest n m ⟨first.span, .constant first.text⟩

theorem repeats_spanning {part part' : Parse Form} (start : Span) (h : Repeats e flag part part') :
    Repeats e flag (spanning start part) (spanning (e.shift.move start) part') :=
  .bind h fun _ => .bind (repeats_spanFrom start) fun _ => .pure rfl

section Rules

variable (hr : r.Repeat e r')

include hr

theorem needs_parenStatements (n : Nat) : NeedsToken (parenStatements r n) := by
  cases n with
  | zero => exact Fails.exhausted.needsToken
  | succ n => exact (hr.needs .statement).bind

theorem repeats_parenStatements (n m : Nat) :
    Repeats e flag (parenStatements r n) (parenStatements r' m) := by
  induction n generalizing m with
  | zero => exact .fails Fails.exhausted
  | succ n ih =>
    cases m with
    | zero => exact .exhausted_right
    | succ m =>
      unfold parenStatements
      refine .bind (hr.repeats .statement) fun node => ?_
      refine .next (fun t => ?_) (.fails .expected) fun _ _ => .fails .expected
      refine .ite rfl (.took (.pure rfl)) (.ite rfl (.took ?_) (.fails .expected))
      refine .skipTerminators (.accept (needs_parenStatements hr n).bind) ?_
      refine .accept (fun _ => rfl) (fun _ _ => rfl) fun closed => .ite rfl (.pure rfl) ?_
      exact .bind (ih m) fun nodes => .pure rfl

theorem repeats_parenthesized (start : Span) :
    Repeats e flag (parenthesized r n start) (parenthesized r' m (e.shift.move start)) := by
  refine .bind (repeats_withNoDo ?_) fun nodes => ?_
  · refine .skipTerminators (.accept (needs_parenStatements hr n)) ?_
    refine .accept (fun _ => rfl) (fun _ _ => rfl) fun closed => ?_
    exact .ite rfl (.pure rfl) (repeats_parenStatements hr n m)
  · refine .bind (repeats_spanFrom start) fun span => ?_
    rcases nodes with _ | ⟨node, _ | ⟨second, rest⟩⟩
    · exact .pure rfl
    · exact .pure rfl
    · exact .pure rfl

theorem needs_pairsUntil (n : Nat) : NeedsToken (pairsUntil r n) := by
  cases n with
  | zero => exact Fails.exhausted.needsToken
  | succ n => exact (hr.needs .negation).bind

theorem repeats_pairsUntil (n m : Nat) : Repeats e flag (pairsUntil r n) (pairsUntil r' m) := by
  induction n generalizing m with
  | zero => exact .fails Fails.exhausted
  | succ n ih =>
    cases m with
    | zero => exact .exhausted_right
    | succ m =>
      unfold pairsUntil
      refine .bind (hr.repeats .negation) fun key => ?_
      refine .skipNewlines NeedsToken.expect.bind ?_
      refine .expect (fun _ => rfl) fun _ => ?_
      refine .skipNewlines (hr.needs .negation).bind ?_
      refine .bind (hr.repeats .negation) fun value => ?_
      refine .skipNewlines (.next Fails.expected.needsToken) ?_
      refine .next (fun t => ?_) (.fails .expected) fun _ _ => .fails .expected
      refine .ite rfl (.took ?_) (.ite rfl (.took (.pure rfl)) (.fails .expected))
      refine .skipNewlines (.accept (needs_pairsUntil hr n).bind) ?_
      refine .accept (fun _ => rfl) (fun _ _ => rfl) fun closed => .ite rfl (.pure rfl) ?_
      exact .bind (ih m) fun pairs => .pure rfl

theorem repeats_hashLiteral (start : Span) :
    Repeats e flag (hashLiteral r n start) (hashLiteral r' m (e.shift.move start)) := by
  refine .bind (repeats_withNoDo ?_) fun pairs => ?_
  · refine .skipNewlines (.accept (needs_pairsUntil hr n)) ?_
    refine .accept (fun _ => rfl) (fun _ _ => rfl) fun closed => ?_
    exact .ite rfl (.pure rfl) (repeats_pairsUntil hr n m)
  · exact .bind (repeats_spanFrom start) fun span => .pure rfl

theorem repeats_lambda (start : Span) :
    Repeats e flag (lambda r n start) (lambda r' m (e.shift.move start)) := by
  refine .bind repeats_lambdaParams fun params => .bind repeats_blockOpener fun opener => ?_
  cases opener with
  | none => exact .fails (.of_bind fun _ => .expected)
  | some opener =>
    obtain ⟨span, closer⟩ := opener
    refine .bind (repeats_withNoDo (repeats_bodyUntil hr closer)) fun nodes => ?_
    refine .bind (repeats_siteAt start) fun site => ?_
    exact .bind (repeats_spanFrom start) fun span => .pure rfl

theorem repeats_otherBranch (closer : Token) :
    Repeats e flag (otherBranch r n closer) (otherBranch r' m (e.shift.move closer)) := by
  refine .ite rfl ?_ (.ite rfl (repeats_bodyUntil hr "end") (.pure rfl))
  exact .bind (hr.repeats (.conditional closer.span)) fun node => .pure rfl

theorem repeats_conditional (start : Span) (negate : Bool) :
    Repeats e flag (conditional r n start negate)
      (conditional r' m (e.shift.move start) negate) := by
  refine .bind (hr.repeats .clause) fun condition => ?_
  unfold thenKeyword
  simp only [bind_assoc, pure_bind]
  refine .skipTerminators (.accept (needs_body _ n).bind) ?_
  refine .accept (fun _ => rfl) (fun _ _ => rfl) fun _ => ?_
  refine .bind (repeats_body hr _ n m) fun ⟨first, closer⟩ => ?_
  refine .bind (repeats_otherBranch hr closer) fun other => ?_
  refine .bind (repeats_spanFrom start) fun span => .pure ?_
  cases negate <;> rfl

/-- The header of a loop may end with the line feed. Then a token has to come. -/
theorem Mirrors.loopHeader {β : Type} [Moves β] {f g : Node → Parse β}
    (hneeds : ∀ node, NeedsToken (f node))
    (h : ∀ node, Repeats e flag (f node) (g (e.shift.move node))) :
    Repeats e flag (Grammar.loopHeader r n >>= f) (Grammar.loopHeader r' m >>= g) := by
  unfold Grammar.loopHeader
  simp only [bind_assoc, pure_bind]
  refine .bind (repeats_withNoDo (hr.repeats .clause)) fun node => ?_
  refine .skipTerminators (.accept (hneeds node)) ?_
  exact .accept (fun _ => rfl) (fun _ _ => rfl) fun _ => h node

theorem repeats_loop (start : Span) (wanted : Bool) :
    Repeats e flag (loop r n start wanted) (loop r' m (e.shift.move start) wanted) := by
  refine .loopHeader hr (fun _ => (needs_body _ n).bind.bind) fun condition => ?_
  refine .bind (repeats_bodyUntil hr "end") fun nodes => ?_
  exact .bind (repeats_spanFrom start) fun span => .pure rfl

theorem repeats_forEach (start : Span) :
    Repeats e flag (forEach r n start) (forEach r' m (e.shift.move start)) := by
  refine .expect (fun _ => rfl) fun name => .expect (fun _ => rfl) fun _ => ?_
  refine .loopHeader hr (fun _ => (needs_body _ n).bind.bind) fun iterable => ?_
  refine .bind (repeats_bodyUntil hr "end") fun nodes => ?_
  refine .bind (repeats_siteAt start) fun site => ?_
  exact .bind (repeats_spanFrom start) fun span => .pure rfl

theorem repeats_define (start : Span) :
    Repeats e flag (define r n start) (define r' m (e.shift.move start)) := by
  refine .bind repeats_methodHead fun ⟨target, first⟩ => ?_
  refine .bind (repeats_methodName first) fun name => ?_
  refine .bind repeats_methodParams fun params => ?_
  refine .bind (repeats_bodyUntil hr "end") fun nodes => ?_
  refine .bind (repeats_siteAt start) fun site => ?_
  exact .bind (repeats_spanFrom start) fun span => .pure rfl

theorem repeats_superclass : Repeats e flag (superclass r) (superclass r') := by
  refine .accept (fun _ => rfl) (fun _ _ => rfl) fun found => .ite rfl ?_ (.pure rfl)
  exact .bind (hr.repeats .value) fun node => .pure rfl

theorem repeats_openClass (start : Span) :
    Repeats e flag (openClass r n start) (openClass r' m (e.shift.move start)) := by
  refine .bind repeats_classPath fun path => ?_
  refine .bind (repeats_superclass hr) fun parent => ?_
  refine .bind (repeats_bodyUntil hr "end") fun nodes => ?_
  exact .bind (repeats_spanFrom start) fun span => .pure rfl

theorem repeats_openModule (start : Span) :
    Repeats e flag (openModule r n start) (openModule r' m (e.shift.move start)) := by
  refine .bind repeats_classPath fun path => ?_
  refine .bind (repeats_bodyUntil hr "end") fun nodes => ?_
  exact .bind (repeats_spanFrom start) fun span => .pure rfl

theorem repeats_nameOrCall (t : Token) :
    Repeats e flag (nameOrCall r n t) (nameOrCall r' m (e.shift.move t)) := by
  have hrest : ∀ isCall : Bool, Repeats e flag
      (if isCall then callRest r n none t.text t.span else pure ⟨t.span, .localVar t.text⟩)
      (if isCall then callRest r' m none t.text (e.shift.move t.span)
        else pure ⟨e.shift.move t.span, .localVar t.text⟩) :=
    fun isCall => .ite rfl (repeats_callRest hr none t.text t.span) (.pure rfl)
  refine .peek (fun following => ?_) (hrest false) fun _ _ => ?_
  · refine .ite rfl (hrest true) (.ite rfl ?_ (hrest (startsArgs following)))
    refine .noDo (fun _ _ h => h.noDo.2.trans h.noDo.1.symm) fun c d hdo => ?_
    rw [hdo]
    exact hrest !c.noDo
  · exact .otherwise rfl (.otherwise rfl (hrest false))

theorem repeats_word (t : Token) : Repeats e flag (word r n t) (word r' m (e.shift.move t)) := by
  obtain ⟨kind, text, span, spaced⟩ := t
  change Repeats e flag _ (word r' m ⟨kind, text, e.shift.move span, spaced⟩)
  unfold word
  dsimp only
  split
  case h_1 | h_2 | h_3 | h_4 | h_19 | h_20 | h_21 => exact .pure rfl
  case h_5 | h_6 => exact repeats_conditional hr span _
  case h_7 | h_8 => exact repeats_loop hr span _
  case h_9 => exact repeats_forEach hr span
  case h_10 => exact repeats_define hr span
  case h_11 => exact repeats_openClass hr span
  case h_12 => exact repeats_openModule hr span
  case h_13 =>
    exact repeats_spanning span (.bind (repeats_bodyUntil hr "end") fun _ => .pure rfl)
  case h_14 =>
    refine .bind (hr.repeats .expression) fun operand => .pure ?_
    rw [Shift.span_move, Shift.move_join]
    rfl
  case h_15 | h_16 =>
    exact repeats_spanning span (.bind (repeats_optionalArgs hr) fun _ => .pure rfl)
  case h_17 | h_18 =>
    exact repeats_spanning span (.bind (repeats_optionalValue hr) fun _ => .pure rfl)
  case h_22 =>
    exact .ite rfl (.fails .unexpected) (repeats_nameOrCall hr ⟨kind, text, span, spaced⟩)

theorem repeats_bracket (t : Token) :
    Repeats e flag (bracket r n t) (bracket r' m (e.shift.move t)) := by
  obtain ⟨kind, text, span, spaced⟩ := t
  change Repeats e flag _ (bracket r' m ⟨kind, text, e.shift.move span, spaced⟩)
  unfold bracket
  dsimp only
  split
  · exact repeats_parenthesized hr span
  · exact repeats_spanning span (.bind (repeats_listUntil hr "]") fun _ => .pure rfl)
  · exact repeats_hashLiteral hr span
  · refine .expect (fun _ => rfl) fun name => .pure ?_
    exact congrArg (fun span => Node.mk span (.constant name.text))
      (e.shift.move_join span name.span)
  · exact .fails .unexpected

theorem repeats_primary : Repeats e flag (primary r n) (primary r' m) := by
  refine .nextRequired fun t => .took ?_
  obtain ⟨kind, text, span, spaced⟩ := t
  cases kind with
  | integer => exact .bind (repeats_number ⟨.integer, text, span, spaced⟩ false) fun _ => .pure rfl
  | float => exact .bind (repeats_number ⟨.float, text, span, spaced⟩ false) fun _ => .pure rfl
  | string | symbol | instanceVar | classVar | globalVar => exact .pure rfl
  | constant =>
    refine .bind repeats_parenFollows fun paren => ?_
    exact .ite rfl (repeats_callRest hr none text span) (.pure rfl)
  | identifier => exact repeats_word hr ⟨.identifier, text, span, spaced⟩
  | separator => exact repeats_bracket hr ⟨.separator, text, span, spaced⟩
  | operator => exact .ite rfl (repeats_lambda hr span) (.fails .unexpected)
  | endOfLine => exact .fails .unexpected

end Rules

/-! ## Operators -/

/-- The operators of a level are the same in both texts, a line feed is none of them, and they
combine operands alike. -/
structure Plain (e : Embedding) (operator? : Token → Option (Node → Node → Form)) : Prop where
  move : ∀ t, operator? (e.shift.move t) = operator? t
  feed : ∀ span spaced, operator? (.feed span spaced) = none
  combine : ∀ t form, operator? t = some form → ∀ left right : Node,
    form (e.shift.move left) (e.shift.move right) = e.shift.move (form left right)

theorem repeats_leftAssoc {operand operand' : Parse Node}
    {operator? : Token → Option (Node → Node → Form)} (hneeds : NeedsToken operand)
    (h : Repeats e flag operand operand') (hplain : Plain e operator?) (n m : Nat) (left : Node) :
    Repeats e flag (leftAssoc operand operator? n left)
      (leftAssoc operand' operator? m (e.shift.move left)) := by
  induction n generalizing m left with
  | zero => exact .fails Fails.exhausted
  | succ n ih =>
    cases m with
    | zero => exact .exhausted_right
    | succ m =>
      unfold leftAssoc
      refine .next (fun t => ?_) (.pure rfl) fun span spaced => ?_
      · dsimp only
        rw [hplain.move]
        cases hform : operator? t with
        | none => exact .push (.pure rfl)
        | some form =>
          refine .took (.skipNewlines hneeds.bind (.bind h fun right => ?_))
          have hnode := e.shift.move_joined_nodes left right (form left right)
          rw [← hplain.combine t form hform] at hnode
          exact hnode ▸ ih m ⟨left.span.join right.span, form left right⟩
      · dsimp only
        rw [hplain.feed]
        exact .pushFeed (.pure rfl)

theorem plain_levelOperator? (operators : List String) :
    Plain e (levelOperator? operators) where
  move _ := rfl
  feed _ _ := rfl
  combine t form h left right := by
    unfold levelOperator? at h
    split at h
    · cases h
      unfold combine
      split
      · rfl
      · split <;> rfl
    · cases h

theorem plain_andOperator? : Plain e andOperator? where
  move _ := rfl
  feed _ _ := rfl
  combine t form h left right := by
    unfold andOperator? at h
    split at h <;> cases h
    rfl

theorem plain_orOperator? : Plain e orOperator? where
  move _ := rfl
  feed _ _ := rfl
  combine t form h left right := by
    unfold orOperator? at h
    split at h <;> cases h
    rfl

theorem isAssignable_move (form : Form) :
    (e.shift.move form).isAssignable = form.isAssignable := by
  cases form with
  | call receiver name args block =>
    cases receiver <;> cases args <;> cases block <;> rfl
  | _ => rfl

theorem plain_wordOperator? : Plain e wordOperator? where
  move _ := rfl
  feed _ _ := rfl
  combine t form h left right := by
    unfold wordOperator? at h
    split at h
    · cases h
      rfl
    · split at h <;> cases h
      rfl

theorem plain_modifier? : Plain e modifier? where
  move _ := rfl
  feed _ _ := rfl
  combine t form h left right := by
    unfold modifier? at h
    split at h
    · split at h <;> cases h <;> rfl
    · cases h

section Rules

variable (hr : r.Repeat e r')

include hr

theorem repeats_operand : Repeats e flag (operand r n) (operand r' m) := by
  have hsigned : ∀ (t : Token) (name : String), Repeats e flag
      (do let node ← r .operand
          pure (⟨t.span.join node.span, .send node name []⟩ : Node))
      (do let node ← r' .operand
          pure (⟨(e.shift.move t.span).join node.span, .send node name []⟩ : Node)) := by
    intro t name
    refine .bind (hr.repeats .operand) fun node => .pure ?_
    rw [Shift.span_move, Shift.move_join]
    rfl
  refine .nextRequired fun t => .ite rfl (.took ?_) (.ite rfl (.took (hr.repeats .operand)) ?_)
  · refine .nextRequired fun following => .ite rfl (.took ?_) (.push (hsigned t "-@"))
    refine .bind (repeats_number following true) fun form => ?_
    have hnode := congrArg (fun span => Node.mk span (e.shift.move form))
      (e.shift.move_join t.span following.span)
    exact hnode ▸ repeats_chain hr n m ⟨t.span.join following.span, form⟩
  · refine .ite rfl (.took (hsigned t t.text)) (.push ?_)
    exact .bind (repeats_primary hr) fun term => repeats_chain hr n m term

theorem needs_binary (levels : List (List String)) : NeedsToken (binary r n levels) := by
  induction levels with
  | nil => exact hr.needs .operand
  | cons operators tighter ih => exact ih.bind

theorem repeats_binary (levels : List (List String)) :
    Repeats e flag (binary r n levels) (binary r' m levels) := by
  induction levels with
  | nil => exact hr.repeats .operand
  | cons operators tighter ih =>
    refine .bind ih fun left => ?_
    exact repeats_leftAssoc (needs_binary hr tighter) ih (plain_levelOperator? operators) n m left

theorem needs_conjunction : NeedsToken (conjunction r n) :=
  (needs_binary hr binaryLevels).bind

theorem repeats_conjunction : Repeats e flag (conjunction r n) (conjunction r' m) :=
  .bind (repeats_binary hr binaryLevels) fun left =>
    repeats_leftAssoc (needs_binary hr _) (repeats_binary hr _) plain_andOperator? n m left

theorem repeats_value : Repeats e flag (value r n) (value r' m) :=
  .bind (repeats_conjunction hr) fun left =>
    repeats_leftAssoc (needs_conjunction hr) (repeats_conjunction hr) plain_orOperator? n m left

theorem repeats_expression : Repeats e flag (expression r n) (expression r' m) := by
  refine .bind (hr.repeats .value) fun left => ?_
  refine .next (fun t => ?_) (.pure rfl) fun _ _ => .pushFeed (.pure rfl)
  have hassign : assignOperator? (e.shift.move t) = assignOperator? t := rfl
  dsimp only
  rw [hassign]
  cases assignOperator? t with
  | none => exact .push (.pure rfl)
  | some operator =>
    refine .ite ?_ (.fails .failAt) (.took ?_)
    · rw [Shift.form_move, isAssignable_move]
    · refine .skipNewlines (hr.needs .expression).bind ?_
      refine .bind (hr.repeats .expression) fun right => .pure ?_
      rw [Shift.span_move, Shift.span_move, Shift.move_join]
      cases operator <;> rfl

theorem repeats_negation : Repeats e flag (negation r) (negation r') := by
  refine .nextRequired fun t => .ite rfl (.took ?_) (.push (hr.repeats .expression))
  refine .bind (hr.repeats .negation) fun node => .pure ?_
  rw [Shift.span_move]
  exact congrArg (fun span => Node.mk span (.send (e.shift.move node) "!" []))
    (e.shift.move_join t.span node.span)

theorem repeats_clause : Repeats e flag (clause r n) (clause r' m) :=
  .bind (hr.repeats .negation) fun left => repeats_leftAssoc (hr.needs .negation)
    (hr.repeats .negation) plain_wordOperator? n m left

theorem repeats_modifiers (n m : Nat) (node : Node) :
    Repeats e flag (modifiers r n node) (modifiers r' m (e.shift.move node)) := by
  induction n generalizing m node with
  | zero => exact .fails Fails.exhausted
  | succ n ih =>
    cases m with
    | zero => exact .exhausted_right
    | succ m =>
      unfold modifiers
      refine .next (fun t => ?_) (.pure rfl) fun _ _ => .pushFeed (.pure rfl)
      dsimp only
      rw [plain_modifier?.move]
      cases hform : modifier? t with
      | none => exact .push (.pure rfl)
      | some form =>
        refine .took (.bind (hr.repeats .clause) fun condition => ?_)
        have hnode := e.shift.move_joined_nodes node condition (form node condition)
        rw [← plain_modifier?.combine t form hform] at hnode
        exact hnode ▸ ih m ⟨node.span.join condition.span, form node condition⟩

theorem repeats_statement : Repeats e flag (statement r n) (statement r' m) :=
  .bind (hr.repeats .clause) fun node => repeats_modifiers hr n m node

end Rules

/-! ## Rules of any depth -/

theorem repeats_step (hr : r.Repeat e r') (rule : Rule) :
    Repeats e flag (step n r rule) (step m r' (e.shift.move rule)) :=
  match rule with
  | .statement => repeats_statement hr
  | .clause => repeats_clause hr
  | .negation => repeats_negation hr
  | .expression => repeats_expression hr
  | .value => repeats_value hr
  | .operand => repeats_operand hr
  | .conditional start => repeats_conditional hr start false

theorem needs_step (hr : r.Repeat e r') (rule : Rule) : NeedsToken (step n r rule) :=
  match rule with
  | .statement => (hr.needs .clause).bind
  | .clause => (hr.needs .negation).bind
  | .negation => NeedsToken.nextRequired.bind
  | .expression => (hr.needs .value).bind
  | .value => (needs_conjunction hr).bind
  | .operand => NeedsToken.nextRequired.bind
  | .conditional _ => (hr.needs .clause).bind

/-- The rules do in a larger text what they do in a smaller one, whatever their depths are. -/
theorem rules_repeat (n m : Nat) : (rules n).Repeat e (rules m) := by
  induction n generalizing m with
  | zero => exact ⟨fun _ => .fails .exhausted, fun _ => Fails.exhausted.needsToken⟩
  | succ n ih =>
    cases m with
    | zero => exact ⟨fun _ => .exhausted_right, needs_step (ih 0)⟩
    | succ m => exact ⟨repeats_step (ih m), needs_step (ih m)⟩

end Spinel.Grammar
