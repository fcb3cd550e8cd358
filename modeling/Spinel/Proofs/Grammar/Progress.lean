import Spinel.Grammar.Program
import Spinel.Proofs.Grammar.Depth

/-!
# Rules take tokens

No rule comes back to itself without having taken a token, and no loop goes round without taking
one. One statement for each function of the grammar, in the order of the grammar's modules, and
from them one for the step from a rule to the rules that it goes on with (`leaves_step`). By
induction on the depth, with less than `s` ahead, depth `7 * s + 6` is enough for any rule, and a
rule that succeeds has taken something (`leaves_rules`). So reading a program never ends for lack of
depth (`program_ne_exhausted`).
-/

namespace Spinel.Grammar

/-! ## Rules -/

/-- With less than `b` ahead, every rule takes something, and lacks depth only where less than `m`
is ahead. -/
def Rules.Serve (r : Rules) (m b : Nat) : Prop :=
  ∀ rule s, s ≤ b → Leaves m s (r rule) fun _ => s - 1

variable {β : Type} {r : Rules} {m b n s : Nat}

theorem Leaves.rule {f : Node → Parse β} {k : β → Nat} (hr : r.Serve m b) (hb : s ≤ b)
    {rule : Rule} (h : ∀ node, Leaves m (s - 1) (f node) k) : Leaves m s (r rule >>= f) k :=
  (hr rule s hb).bind h

/-! ## Statement lists and parameters -/

theorem leaves_endOfCommand : Leaves m s endOfCommand fun _ => s := by
  unfold endOfCommand
  refine .next (fun t s' hs => ?_) fun hs => .pure hs
  dsimp only
  split
  · exact .pure (by omega)
  · split
    · rw [← bind_pure (push t)]
      exact .push (.pure (by omega))
    · exact leaves_unexpected

theorem leaves_body (hr : r.Serve m b) (hb : s ≤ b) (hn : s < n + m)
    (closers : List String) : Leaves m s (body r closers n) fun _ => s := by
  induction n generalizing s with
  | zero => exact .exhausted (by omega)
  | succ n ih =>
    unfold body
    refine .skipWhile (by omega) (.next (fun t s' hs => ?_) fun _ => leaves_expected)
    dsimp only
    split
    · exact .pure (by omega)
    · refine .push (.rule hr (by omega) fun node => leaves_endOfCommand.bind fun _ => ?_)
      exact (ih (s := s') (by omega) (by omega)).bind fun _ => .pure (by omega)

theorem leaves_bodyUntil (hr : r.Serve m b) (hb : s ≤ b) (hn : s < n + m)
    (closer : String) : Leaves m s (bodyUntil r n closer) fun _ => s :=
  (leaves_body hr hb hn _).bind fun _ => .pure (Nat.le_refl _)

theorem leaves_param (params : Params) : Leaves m s (param params) fun _ => s - 1 := by
  unfold param
  refine .nextRequired fun t s' hs => ?_
  split
  · exact .expect fun _ _ _ => .pure (by omega)
  · split
    · exact .pure (by omega)
    · exact leaves_expected

theorem leaves_paramsUntil (hn : s < n + m) (closer : String) (params : Params) :
    Leaves m s (paramsUntil closer n params) fun _ => s := by
  induction n generalizing s params with
  | zero => exact .exhausted (by omega)
  | succ n ih =>
    unfold paramsUntil
    refine (leaves_param params).bind fun params => .skipWhile (by omega)
      (.next (fun t s' hs => ?_) fun _ => leaves_expected)
    dsimp only
    split
    · exact .skipWhile (by omega) ((ih (s := s') (by omega) params).upTo (by omega))
    · split
      · exact .pure (by omega)
      · exact leaves_expected

theorem leaves_paramList (hn : s < n + m) (closer : String) :
    Leaves m s (paramList n closer) fun _ => s :=
  .skipWhile (by omega) (.accept (fun _ _ => .pure (by omega)) (leaves_paramsUntil hn closer _))

theorem leaves_bareParams (hn : s < n + m) (params : Params) :
    Leaves m s (bareParams n params) fun _ => s := by
  induction n generalizing s params with
  | zero => exact .exhausted (by omega)
  | succ n ih =>
    refine (leaves_param params).bind fun params => .accept (fun s' hs => ?_) (.pure (by omega))
    exact (ih (s := s') (by omega) params).upTo (by omega)

theorem leaves_methodParams (hn : s < n + m) : Leaves m s (methodParams n) fun _ => s := by
  unfold methodParams
  refine .next (fun t s' hs => ?_) fun hs => .pure hs
  dsimp only
  split
  · exact (leaves_paramList (s := s') (by omega) _).upTo (by omega)
  · refine .push ?_
    split
    · exact (leaves_bareParams (by omega) _).upTo (by omega)
    · exact .pure (by omega)

theorem leaves_lambdaParams (hn : s < n + m) : Leaves m s (lambdaParams n) fun _ => s := by
  unfold lambdaParams
  refine .next (fun t s' hs => ?_) fun hs => .pure hs
  dsimp only
  split
  · exact (leaves_paramList (s := s') (by omega) _).upTo (by omega)
  · refine .push ?_
    split
    · exact (leaves_bareParams (by omega) _).upTo (by omega)
    · exact .pure (by omega)

theorem leaves_blockParams (hn : s < n + m) : Leaves m s (blockParams n) fun _ => s := by
  unfold blockParams
  refine .next (fun t s' hs => ?_) fun hs => .pure hs
  dsimp only
  split
  · exact .pure (by omega)
  · split
    · exact (leaves_paramList (s := s') (by omega) _).upTo (by omega)
    · exact .push (.pure (by omega))

/-! ## Calls -/

theorem leaves_afterComma {others : Parse Args} (hn : s ≤ n + m)
    (h : ∀ s', s' < s → Leaves m s' others fun _ => s') :
    Leaves m s (afterComma n others) fun _ => s :=
  .accept (fun s' hs => .skipWhile (by omega) ((h s' (by omega)).upTo (by omega)))
    (.pure (Nat.le_refl s))

theorem leaves_blockOpener : Leaves m s blockOpener fun _ => s := by
  unfold blockOpener
  refine .next (fun t s' hs => ?_) fun hs => .pure hs
  dsimp only
  split
  · exact .pure (by omega)
  · refine .get fun c => ?_
    split
    · exact .pure (by omega)
    · exact .push (.pure (by omega))

theorem leaves_parenFollows : Leaves m s parenFollows fun _ => s :=
  .peek (fun _ => .pure (Nat.le_refl _)) fun hs => .pure hs

theorem leaves_optionalValue (hr : r.Serve m b) (hb : s ≤ b) :
    Leaves m s (optionalValue r) fun _ => s := by
  refine .peek (fun t => ?_) fun hs => .pure hs
  dsimp only
  split
  · exact .rule hr hb fun _ => .pure (Nat.sub_le _ _)
  · exact .pure (Nat.le_refl _)

theorem leaves_argument (hr : r.Serve m b) (hb : s ≤ b) (hn : s ≤ n + m) {others : Parse Args}
    (h : ∀ s', s' < s → Leaves m s' others fun _ => s') :
    Leaves m s (argument r n others) fun _ => s := by
  have hcomma : ∀ s', s' ≤ s → Leaves m s' (afterComma n others) fun _ => s' := fun s' hs' =>
    leaves_afterComma (by omega) fun s'' hs'' => h s'' (by omega)
  refine .rule hr hb fun arg => .accept (fun s' hs => ?_) ?_
  · refine .skipWhile (by omega) (.rule hr (by omega) fun value => ?_)
    exact (hcomma _ (by omega)).bind fun _ => .pure (by omega)
  · exact (hcomma _ (by omega)).bind fun _ => .pure (by omega)

section Rules

variable (hr : r.Serve m b) (hb : s ≤ b) (hn : s < n + m)

include hr hb hn

theorem leaves_argsLoop : Leaves m s (argsLoop r n) fun _ => s := by
  induction n generalizing s with
  | zero => exact .exhausted (by omega)
  | succ n ih =>
    unfold argsLoop
    refine .next (fun t s' hs => ?_) ?_
    · dsimp only
      split
      · exact .rule hr (by omega) fun _ => .pure (by omega)
      · refine .push ((leaves_argument hr (by omega) (by omega) fun s'' hs'' => ?_).upTo (by omega))
        exact ih (by omega) (by omega)
    · intro hs
      refine (leaves_argument hr (by omega) (by omega) fun s'' hs'' => ?_).upTo hs
      exact ih (by omega) (by omega)

theorem leaves_commandArgs : Leaves m s (commandArgs r n) fun _ => s :=
  (leaves_argsLoop hr hb hn).bind fun _ => .pure (Nat.le_refl _)

theorem leaves_parenArgs : Leaves m s (parenArgs r n) fun _ => s := by
  refine leaves_withNoDo (.skipWhile (by omega) (.accept (fun _ _ => .pure (by omega)) ?_))
  refine (leaves_commandArgs hr hb hn).bind fun _ => .skipWhile (by omega) ?_
  exact .expect fun _ _ _ => .pure (by omega)

theorem leaves_itemsUntil (closer : String) : Leaves m s (itemsUntil r closer n) fun _ => s := by
  induction n generalizing s with
  | zero => exact .exhausted (by omega)
  | succ n ih =>
    unfold itemsUntil
    refine .rule hr hb fun item => .skipWhile (by omega) (.next (fun t s' hs => ?_)
      fun _ => leaves_expected)
    dsimp only
    split
    · refine .skipWhile (by omega) (.accept (fun _ _ => .pure (by omega)) ?_)
      exact (ih (s := s') (by omega) (by omega)).bind fun _ => .pure (by omega)
    · split
      · exact .pure (by omega)
      · exact leaves_expected

theorem leaves_listUntil (closer : String) : Leaves m s (listUntil r n closer) fun _ => s :=
  leaves_withNoDo (.skipWhile (by omega) (.accept (fun _ _ => .pure (by omega))
    (leaves_itemsUntil hr hb hn closer)))

theorem leaves_blockLiteral : Leaves m s (blockLiteral r n) fun _ => s := by
  refine leaves_blockOpener.bind fun opener => ?_
  cases opener with
  | none => exact .pure (Nat.le_refl _)
  | some opener =>
    refine .siteAt fun site => leaves_withNoDo ((leaves_blockParams hn).bind fun _ => ?_)
    exact (leaves_bodyUntil hr hb hn _).bind fun _ => .pure (Nat.le_refl _)

theorem leaves_callArgs : Leaves m s (callArgs r n) fun _ => s := by
  unfold callArgs
  refine .next (fun t s' hs => ?_) fun hs => .pure hs
  dsimp only
  split
  · exact (leaves_parenArgs hr (s := s') (by omega) (by omega)).upTo (by omega)
  · refine .push ?_
    split
    · exact (leaves_commandArgs hr (by omega) (by omega)).upTo (by omega)
    · exact .pure (by omega)

theorem leaves_callRest (receiver : Option Node) (name : String) (nameSpan : Span) :
    Leaves m s (callRest r n receiver name nameSpan) fun _ => s := by
  refine (leaves_callArgs hr hb hn).bind fun args => ?_
  obtain ⟨args, given⟩ := args
  have hrest : ∀ block, Leaves m s (do
      let span ← spanFrom ((receiver.map Node.span).getD nameSpan)
      pure (⟨span, .call receiver name args block⟩ : Node)) fun _ => s :=
    fun _ => .spanFrom fun _ => .pure (Nat.le_refl _)
  cases given with
  | none => exact (leaves_blockLiteral hr hb hn).bind hrest
  | literal block => exact hrest _
  | value node => exact hrest _

theorem leaves_memberOf (term : Node) (scope : Bool) :
    Leaves m s (memberOf r n term scope) fun _ => s := by
  refine .skipWhile (by omega) (.nextRequired fun name s' hs => ?_)
  have hrest : Leaves m s' (callRest r n (some term) name.text name.span) fun _ => s :=
    (leaves_callRest hr (by omega) (by omega) _ _ _).upTo (by omega)
  split
  · exact leaves_expected
  · split
    · refine leaves_parenFollows.bind fun paren => ?_
      split
      · exact hrest
      · exact .pure (by omega)
    · exact hrest

theorem leaves_chain (term : Node) : Leaves m s (chain r n term) fun _ => s := by
  induction n generalizing s term with
  | zero => exact .exhausted (by omega)
  | succ n ih =>
    unfold chain
    refine .next (fun t s' hs => ?_) fun hs => .pure hs
    have hmore : ∀ term, Leaves m s' (chain r n term) fun _ => s := fun term =>
      (ih (s := s') (by omega) (by omega) term).upTo (by omega)
    dsimp only
    split
    · exact (leaves_memberOf hr (s := s') (by omega) (by omega) term _).bind hmore
    · split
      · exact (leaves_listUntil hr (s := s') (by omega) (by omega) _).bind fun _ =>
          .spanFrom fun _ => hmore _
      · exact .push (.pure (by omega))

theorem leaves_optionalArgs : Leaves m s (optionalArgs r n) fun _ => s :=
  (leaves_callArgs hr hb hn).bind fun _ => .pure (Nat.le_refl _)

end Rules

/-! ## Terms -/

theorem leaves_number (t : Token) (negative : Bool) :
    Leaves m s (number t negative) fun _ => s := by
  unfold number
  split
  · exact .pure (Nat.le_refl _)
  · dsimp only
    split
    · exact .pure (Nat.le_refl _)
    · exact leaves_failAt

theorem leaves_thenKeyword (hn : s ≤ n + m) : Leaves m s (thenKeyword n) fun _ => s :=
  .skipWhile hn (leaves_accept.bind fun _ => .pure (Nat.le_refl _))

theorem leaves_methodName (t : Token) : Leaves m s (methodName t) fun _ => s := by
  have hmark : ∀ {s' : Nat} {x y : String}, s' ≤ s →
      Leaves m s' (do if ← accept isSetterMark then pure x else pure y) fun _ => s := fun hs =>
    .accept (fun _ _ => .pure (by omega)) (.pure hs)
  unfold methodName
  split
  · exact hmark (Nat.le_refl _)
  · exact hmark (Nat.le_refl _)
  · split
    · exact .pure (Nat.le_refl _)
    · exact leaves_expected
  · split
    · exact .pure (Nat.le_refl _)
    · split
      · exact .expect fun _ _ _ => hmark (by omega)
      · exact leaves_expected
  · exact leaves_expected

theorem leaves_methodHead : Leaves m s methodHead fun _ => s := by
  refine .nextRequired fun first s' hs => ?_
  split
  · exact .accept (fun _ _ => .nextRequired fun _ _ _ => .pure (by omega)) (.pure (by omega))
  · exact .pure (by omega)

theorem leaves_pathRest (hn : s < n + m) (path : Node) :
    Leaves m s (pathRest n path) fun _ => s := by
  induction n generalizing s path with
  | zero => exact .exhausted (by omega)
  | succ n ih =>
    refine .accept (fun s' hs => .expect fun _ s'' hs' => ?_) (.pure (Nat.le_refl _))
    exact (ih (s := s'') (by omega) _).upTo (by omega)

theorem leaves_classPath (hn : s < n + m) : Leaves m s (classPath n) fun _ => s :=
  .expect fun _ _ _ => (leaves_pathRest (by omega) _).upTo (by omega)

theorem leaves_superclass (hr : r.Serve m b) (hb : s ≤ b) : Leaves m s (superclass r) fun _ => s :=
  .accept (fun _ _ => .rule hr (by omega) fun _ => .pure (by omega)) (.pure (Nat.le_refl _))

theorem leaves_spanning {start : Span} {part : Parse Form} (h : Leaves m s part fun _ => s) :
    Leaves m s (spanning start part) fun _ => s :=
  h.bind fun _ => .spanFrom fun _ => .pure (Nat.le_refl _)

section Rules

variable (hr : r.Serve m b) (hb : s ≤ b) (hn : s < n + m)

include hr hb hn

theorem leaves_parenStatements : Leaves m s (parenStatements r n) fun _ => s := by
  induction n generalizing s with
  | zero => exact .exhausted (by omega)
  | succ n ih =>
    unfold parenStatements
    refine .rule hr hb fun node => .next (fun t s' hs => ?_) fun _ => leaves_expected
    dsimp only
    split
    · exact .pure (by omega)
    · split
      · refine .skipWhile (by omega) (.accept (fun _ _ => .pure (by omega)) ?_)
        exact (ih (s := s') (by omega) (by omega)).bind fun _ => .pure (by omega)
      · exact leaves_expected

theorem leaves_parenthesized (start : Span) : Leaves m s (parenthesized r n start) fun _ => s := by
  refine (leaves_withNoDo (.skipWhile (by omega) (.accept (fun _ _ => .pure (by omega))
    (leaves_parenStatements hr hb hn)))).bind fun nodes => .spanFrom fun span => ?_
  split <;> exact .pure (Nat.le_refl _)

theorem leaves_pairsUntil : Leaves m s (pairsUntil r n) fun _ => s := by
  induction n generalizing s with
  | zero => exact .exhausted (by omega)
  | succ n ih =>
    unfold pairsUntil
    refine .rule hr hb fun key => .skipWhile (by omega) (.expect fun _ s' hs => ?_)
    refine .skipWhile (by omega) (.rule hr (by omega) fun value => .skipWhile (by omega) ?_)
    refine .next (fun t s'' hs' => ?_) fun _ => leaves_expected
    dsimp only
    split
    · refine .skipWhile (by omega) (.accept (fun _ _ => .pure (by omega)) ?_)
      exact (ih (s := s'') (by omega) (by omega)).bind fun _ => .pure (by omega)
    · split
      · exact .pure (by omega)
      · exact leaves_expected

theorem leaves_hashLiteral (start : Span) : Leaves m s (hashLiteral r n start) fun _ => s :=
  (leaves_withNoDo (.skipWhile (by omega) (.accept (fun _ _ => .pure (by omega))
    (leaves_pairsUntil hr hb hn)))).bind fun _ => .spanFrom fun _ => .pure (Nat.le_refl _)

theorem leaves_lambda (start : Span) : Leaves m s (lambda r n start) fun _ => s := by
  refine (leaves_lambdaParams hn).bind fun params => leaves_blockOpener.bind fun opener => ?_
  cases opener with
  | none => exact .next (fun _ _ _ => leaves_expected) fun _ => leaves_expected
  | some opener =>
    exact (leaves_withNoDo (leaves_bodyUntil hr hb hn _)).bind fun _ =>
      .siteAt fun _ => .spanFrom fun _ => .pure (Nat.le_refl _)

theorem leaves_otherBranch (closer : Token) : Leaves m s (otherBranch r n closer) fun _ => s := by
  unfold otherBranch
  split
  · exact .rule hr hb fun _ => .pure (Nat.sub_le _ _)
  · split
    · exact leaves_bodyUntil hr hb hn _
    · exact .pure (Nat.le_refl _)

theorem leaves_loopHeader : Leaves m s (loopHeader r n) fun _ => s :=
  (leaves_withNoDo (hr _ s hb)).bind fun _ => .skipWhile (by omega)
    (leaves_accept.bind fun _ => .pure (Nat.sub_le _ _))

theorem leaves_loop (start : Span) (wanted : Bool) :
    Leaves m s (loop r n start wanted) fun _ => s :=
  (leaves_loopHeader hr hb (by omega)).bind fun _ => (leaves_bodyUntil hr hb hn _).bind fun _ =>
    .spanFrom fun _ => .pure (Nat.le_refl _)

theorem leaves_forEach (start : Span) : Leaves m s (forEach r n start) fun _ => s := by
  refine .expect fun name s' hs => .expect fun _ s'' hs' => ?_
  refine (leaves_loopHeader hr (s := s'') (by omega) (by omega)).bind fun _ => ?_
  exact (leaves_bodyUntil hr (by omega) (by omega) _).bind fun _ =>
    .siteAt fun _ => .spanFrom fun _ => .pure (by omega)

theorem leaves_define (start : Span) : Leaves m s (define r n start) fun _ => s :=
  leaves_methodHead.bind fun _ => (leaves_methodName _).bind fun _ =>
    (leaves_methodParams hn).bind fun _ => (leaves_bodyUntil hr hb hn _).bind fun _ =>
    .siteAt fun _ => .spanFrom fun _ => .pure (Nat.le_refl _)

theorem leaves_openClass (start : Span) : Leaves m s (openClass r n start) fun _ => s :=
  (leaves_classPath (by omega)).bind fun _ => (leaves_superclass hr hb).bind fun _ =>
    (leaves_bodyUntil hr hb hn _).bind fun _ => .spanFrom fun _ => .pure (Nat.le_refl _)

theorem leaves_openModule (start : Span) : Leaves m s (openModule r n start) fun _ => s :=
  (leaves_classPath (by omega)).bind fun _ => (leaves_bodyUntil hr hb hn _).bind fun _ =>
    .spanFrom fun _ => .pure (Nat.le_refl _)

theorem leaves_nameOrCall (t : Token) : Leaves m s (nameOrCall r n t) fun _ => s := by
  have hrest : ∀ isCall : Bool, Leaves m s (if isCall then callRest r n none t.text t.span
      else pure ⟨t.span, .localVar t.text⟩) fun _ => s := fun isCall => by
    split
    · exact leaves_callRest hr hb hn _ _ _
    · exact .pure (Nat.le_refl _)
  refine .peek (fun following => ?_) fun hs =>
    (hrest false).mono hs fun _ => Nat.le_refl _
  dsimp only
  split
  · exact hrest true
  · split
    · exact .get fun c => hrest _
    · exact hrest _

end Rules

theorem leaves_conditional (hfirst : Leaves m s (r .clause) fun _ => s - 1) (hr : r.Serve m b)
    (hb : s ≤ b + 1) (hn : s < n + m) (start : Span) (negate : Bool) :
    Leaves m s (conditional r n start negate) fun _ => s - 1 := by
  refine hfirst.bind fun _ => (leaves_thenKeyword (by omega)).bind fun _ => ?_
  refine (leaves_body hr (by omega) (by omega) _).bind fun _ => ?_
  exact (leaves_otherBranch hr (by omega) (by omega) _).bind fun _ =>
    .spanFrom fun _ => .pure (Nat.le_refl _)

theorem leaves_word (hr : r.Serve m b) (hb : s ≤ b) (hn : s < n + m) (t : Token) :
    Leaves m s (word r n t) fun _ => s := by
  have hif : ∀ negate, Leaves m s (conditional r n t.span negate) fun _ => s := fun negate =>
    (leaves_conditional (hr _ s hb) hr (by omega) hn t.span negate).upTo (Nat.sub_le _ _)
  unfold word
  split
  case h_5 | h_6 => exact hif _
  case h_7 | h_8 => exact leaves_loop hr hb hn _ _
  case h_9 => exact leaves_forEach hr hb hn _
  case h_10 => exact leaves_define hr hb hn _
  case h_11 => exact leaves_openClass hr hb hn _
  case h_12 => exact leaves_openModule hr hb hn _
  case h_13 =>
    exact leaves_spanning ((leaves_bodyUntil hr hb hn _).bind fun _ => .pure (Nat.le_refl _))
  case h_14 => exact .rule hr hb fun _ => .pure (Nat.sub_le _ _)
  case h_15 | h_16 =>
    exact leaves_spanning ((leaves_optionalArgs hr hb hn).bind fun _ => .pure (Nat.le_refl _))
  case h_17 | h_18 =>
    exact leaves_spanning ((leaves_optionalValue hr hb).bind fun _ => .pure (Nat.le_refl _))
  case h_22 =>
    split
    · exact leaves_unexpected
    · exact leaves_nameOrCall hr hb hn t
  all_goals exact .pure (Nat.le_refl _)

theorem leaves_bracket (hr : r.Serve m b) (hb : s ≤ b) (hn : s < n + m) (t : Token) :
    Leaves m s (bracket r n t) fun _ => s := by
  unfold bracket
  split
  · exact leaves_parenthesized hr hb hn _
  · exact leaves_spanning ((leaves_listUntil hr hb hn _).bind fun _ => .pure (Nat.le_refl _))
  · exact leaves_hashLiteral hr hb hn _
  · exact .expect fun _ _ _ => .pure (by omega)
  · exact leaves_unexpected

theorem leaves_primary (hr : r.Serve m b) (hb : s ≤ b + 1) (hn : 0 < s → s < n + m) :
    Leaves m s (primary r n) fun _ => s - 1 := by
  refine .nextRequired fun t s' hs => ?_
  subst hs
  rw [Nat.add_sub_cancel]
  split
  case h_1 | h_2 => exact (leaves_number t false).bind fun _ => .pure (Nat.le_refl _)
  case h_8 =>
    refine leaves_parenFollows.bind fun paren => ?_
    split
    · exact leaves_callRest hr (by omega) (by omega) _ _ _
    · exact .pure (Nat.le_refl _)
  case h_9 => exact leaves_word hr (by omega) (by omega) t
  case h_10 => exact leaves_bracket hr (by omega) (by omega) t
  case h_11 =>
    split
    · exact leaves_lambda hr (by omega) (by omega) _
    · exact leaves_unexpected
  case h_12 => exact leaves_unexpected
  all_goals exact .pure (Nat.le_refl _)

/-! ## Operators -/

theorem leaves_leftAssoc {operand : Parse Node} {operator? : Token → Option (Node → Node → Form)}
    (hoperand : ∀ s', s' < s → Leaves m s' operand fun _ => s') (hn : s < n + m) (left : Node) :
    Leaves m s (leftAssoc operand operator? n left) fun _ => s := by
  induction n generalizing s left with
  | zero => exact .exhausted (by omega)
  | succ n ih =>
    unfold leftAssoc
    refine .next (fun t s' hs => ?_) fun hs => .pure hs
    dsimp only
    split
    · exact .push (.pure (by omega))
    · refine .skipWhile (by omega) ((hoperand s' (by omega)).bind fun right => ?_)
      exact (ih (s := s') (fun s'' hs'' => hoperand s'' (by omega)) (by omega) _).upTo (by omega)

theorem leaves_operand (hr : r.Serve m b) (hb : s ≤ b + 1) (hn : 0 < s → s < n + m) :
    Leaves m s (operand r n) fun _ => s - 1 := by
  refine .nextRequired fun t s' hs => ?_
  subst hs
  split
  · refine .nextRequired fun following s'' hs' => ?_
    split
    · exact (leaves_number following true).bind fun _ =>
        (leaves_chain hr (by omega) (by omega) _).upTo (by omega)
    · exact .push (.rule hr (by omega) fun _ => .pure (by omega))
  · split
    · exact (hr _ s' (by omega)).upTo (by omega)
    · split
      · exact .rule hr (by omega) fun _ => .pure (by omega)
      · exact .push ((leaves_primary hr hb hn).bind fun _ =>
          (leaves_chain hr (by omega) (by omega) _).upTo (by omega))

/-- Operands chained by operators of one level take what their first operand takes. -/
theorem leaves_level {operand : Parse Node} {operator? : Token → Option (Node → Node → Form)}
    (hoperand : ∀ s', s' ≤ s → Leaves m s' operand fun _ => s' - 1) (hn : s < n + m) :
    ∀ s', s' ≤ s → Leaves m s' (operand >>= leftAssoc operand operator? n) fun _ => s' - 1 :=
  fun s' hs' => (hoperand s' hs').bind fun left => leaves_leftAssoc
    (fun s'' hs'' => (hoperand s'' (by omega)).upTo (Nat.sub_le _ _)) (by omega) left

theorem leaves_binary (hoperand : ∀ s', s' ≤ s → Leaves m s' (r .operand) fun _ => s' - 1)
    (hn : s < n + m) (levels : List (List String)) :
    ∀ s', s' ≤ s → Leaves m s' (binary r n levels) fun _ => s' - 1 := by
  induction levels with
  | nil => exact hoperand
  | cons operators tighter ih => exact leaves_level ih hn

theorem leaves_value (hoperand : ∀ s', s' ≤ s → Leaves m s' (r .operand) fun _ => s' - 1)
    (hn : s < n + m) : Leaves m s (value r n) fun _ => s - 1 :=
  leaves_level (leaves_level (leaves_binary hoperand hn _) hn) hn s (Nat.le_refl s)

theorem leaves_expression (hfirst : Leaves m s (r .value) fun _ => s - 1) (hr : r.Serve m b)
    (hb : s ≤ b + 1) (hn : s < n + m) : Leaves m s (expression r n) fun _ => s - 1 := by
  refine hfirst.bind fun left => .next (fun t s' hs => ?_) fun hs => .pure hs
  dsimp only
  split
  · exact .push (.pure (by omega))
  · split
    · exact leaves_failAt
    · exact .skipWhile (by omega) (.rule hr (by omega) fun _ => .pure (by omega))

theorem leaves_negation (hfirst : Leaves m s (r .expression) fun _ => s - 1) (hr : r.Serve m b)
    (hb : s ≤ b + 1) : Leaves m s (negation r) fun _ => s - 1 := by
  refine .nextRequired fun t s' hs => ?_
  split
  · exact .rule hr (by omega) fun _ => .pure (by omega)
  · exact .push (hs ▸ hfirst)

theorem leaves_clause (hfirst : Leaves m s (r .negation) fun _ => s - 1) (hr : r.Serve m b)
    (hb : s ≤ b + 1) (hn : s < n + m) : Leaves m s (clause r n) fun _ => s - 1 :=
  hfirst.bind fun _ => leaves_leftAssoc
    (fun s' hs' => (hr _ s' (by omega)).upTo (Nat.sub_le _ _)) (by omega) _

theorem leaves_modifiers (hr : r.Serve m b) (hb : s ≤ b + 1) (hn : s < n + m) (node : Node) :
    Leaves m s (modifiers r n node) fun _ => s := by
  induction n generalizing s node with
  | zero => exact .exhausted (by omega)
  | succ n ih =>
    unfold modifiers
    refine .next (fun t s' hs => ?_) fun hs => .pure hs
    dsimp only
    split
    · exact .push (.pure (by omega))
    · exact .rule hr (by omega) fun _ => (ih (by omega) (by omega) _).upTo (by omega)

theorem leaves_statement (hfirst : Leaves m s (r .clause) fun _ => s - 1) (hr : r.Serve m b)
    (hb : s ≤ b + 1) (hn : s < n + m) : Leaves m s (statement r n) fun _ => s - 1 :=
  hfirst.bind fun _ => leaves_modifiers hr (by omega) (by omega) _

/-! ## Programs -/

/-- How many rules there are from this one on that hand on to one another without taking a
token. -/
def Rule.rank : Rule → Nat
  | .statement => 6
  | .clause => 5
  | .negation => 4
  | .expression => 3
  | .value => 2
  | .operand => 1
  | .conditional _ => 6

/-- A rule goes on with rules of smaller rank as long as it has taken no token, and with any rule
behind one. -/
theorem leaves_step {rule : Rule} (hr : r.Serve m (s - 1))
    (hlower : ∀ rule' : Rule, rule'.rank < rule.rank →
      ∀ s', s' ≤ s → Leaves m s' (r rule') fun _ => s' - 1)
    (hn : s < n + m) : Leaves m s (step n r rule) fun _ => s - 1 := by
  have hfirst : ∀ rule' : Rule, rule'.rank < rule.rank → Leaves m s (r rule') fun _ => s - 1 :=
    fun rule' hrank => hlower rule' hrank s (Nat.le_refl s)
  unfold step
  cases rule with
  | statement => exact leaves_statement (hfirst .clause (by decide)) hr (by omega) hn
  | clause => exact leaves_clause (hfirst .negation (by decide)) hr (by omega) hn
  | negation => exact leaves_negation (hfirst .expression (by decide)) hr (by omega)
  | expression => exact leaves_expression (hfirst .value (by decide)) hr (by omega) hn
  | value => exact leaves_value (hlower .operand (by decide)) hn
  | operand => exact leaves_operand hr (by omega) fun _ => hn
  | conditional start =>
    exact leaves_conditional (hfirst .clause (by simp only [Rule.rank]; omega)) hr (by omega) hn
      start false

theorem Rule.rank_le (rule : Rule) : rule.rank ≤ 6 := by
  cases rule <;> simp only [rank] <;> omega

/-- A depth of seven for each token ahead and one for each rule that hands on is enough. -/
theorem leaves_rules {n s : Nat} {rule : Rule} (h : 7 * s + rule.rank ≤ n) :
    Leaves 0 s (rules n rule) fun _ => s - 1 := by
  induction n generalizing s rule with
  | zero => cases rule <;> simp only [Rule.rank] at h <;> omega
  | succ n ih =>
    cases s with
    | zero => exact .zero
    | succ s =>
      refine leaves_step (fun rule' s' hs' => ih ?_) (fun rule' hrank s' hs' => ih ?_) (by omega)
      -- Behind a token any rule may follow: the seven that it leaves are more than any rank.
      · have := rule'.rank_le
        omega
      · omega

theorem Leaves.command {f : Option Node → Parse β} {k : β → Nat} (hr : r.Serve m b) (hb : s ≤ b)
    (hn : s ≤ n + m) (hsome : ∀ node, Leaves m (s - 1) (f (some node)) k)
    (hnone : 0 < s → Leaves m 1 (f none) k) : Leaves m s (Grammar.command r n >>= f) k := by
  unfold Grammar.command
  simp only [bind_assoc]
  refine .skipWhile hn (.peek (fun t => ?_) fun hs => ?_)
  · simp only [bind_assoc, pure_bind]
    exact .rule hr hb fun node => leaves_endOfCommand.bind fun _ => hsome node
  · rw [pure_bind]
    exact hnone hs

theorem leaves_commands (hr : r.Serve m b) (hb : s ≤ b) (hn : s < n + m) :
    Leaves m s (commands r n) fun _ => s := by
  induction n generalizing s with
  | zero => exact .exhausted (by omega)
  | succ n ih =>
    refine .command hr hb (by omega) (fun node => ?_) fun hs => .pure hs
    cases s with
    | zero => exact .zero
    | succ s => exact (ih (by omega) (by omega)).bind fun _ => .pure (Nat.le_succ s)

/-- A depth that suffices for a text suffices for its tokens. -/
theorem leaves_program {length : Nat} (hn : bound length ≤ n) :
    Leaves 0 (length + 1) (commands (rules n) n) fun _ => length + 1 := by
  unfold bound at hn
  have hr : (rules n).Serve 0 (length + 1) := fun rule s' hs' => by
    have := rule.rank_le
    exact leaves_rules (by omega)
  exact leaves_commands hr (Nat.le_refl _) (by omega)

/-- Reading a program never ends for lack of depth. -/
theorem program_ne_exhausted (source : SourceId) (s : Stream) (c : Cursor) :
    program source s ≠ .error .exhausted c := by
  intro h
  have hend := leaves_program (Nat.le_refl (bound s.rest.length)) (.start source s)
    (Nat.lt_succ_of_le (Cursor.ahead_start_le source s))
  unfold program at h
  rw [h] at hend
  exact Nat.not_lt_zero _ hend

end Spinel.Grammar
