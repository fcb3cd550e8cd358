import Mathlib.Tactic.Choose
import Spinel.Proofs.Grammar.Script

/-!
# The state of the parser at every point

Every part of the parser is a script that is orderly and founded (`Regular`). One statement for each
function of the grammar, in the order of the grammar's modules: a token is only ever given back by
the function that has just taken it, `do` is reserved and released in pairs, and errors point to
tokens in hand. So at every point of a parse at most one token is given back and the cursor
remembers the last token taken, and every function that succeeds leaves `do` reserved as it was
(`parse_in_step`).
-/

namespace Spinel.Grammar

variable {α β : Type} {known more : Set (Option Token)} {fresh : Option Token} {x : Parse α}
  {f : α → Parse β}

/-- The part is an orderly script, which may begin with giving back the token `fresh`. -/
def Steady (fresh : Option Token) (x : Parse α) : Prop :=
  ∃ s : Script α, s.run = x ∧ ∀ flag, s.Orderly flag fresh flag

/-- The part is an orderly script, founded on the tokens `known`, which may begin with giving back
the token `fresh`. -/
def Regular (known : Set (Option Token)) (fresh : Option Token) (x : Parse α) : Prop :=
  ∃ s : Script α, s.run = x ∧ (∀ flag, s.Orderly flag fresh flag) ∧ s.Founded known

theorem Regular.steady (h : Regular .univ fresh x) : Steady fresh x := by
  obtain ⟨s, hrun, horderly, -⟩ := h
  exact ⟨s, hrun, horderly⟩

/-! ## Sequences -/

/-- Where all tokens are known, one in hand is no more. -/
theorem Regular.of_insert {token : Option Token} (h : Regular (insert token .univ) fresh x) :
    Regular .univ fresh x := by
  rwa [Set.insert_eq_of_mem (Set.mem_univ token)] at h

theorem Regular.pure {a : α} : Regular known fresh (pure a) :=
  ⟨.done a, rfl, fun _ => rfl, trivial⟩

/-- A part that gives back nothing at first may also follow on a token, and more may be known. -/
theorem Regular.mono (h : Regular known none x) (hsub : known ⊆ more) : Regular more fresh x := by
  obtain ⟨s, hrun, horderly, hfounded⟩ := h
  exact ⟨s, hrun, fun flag => (horderly flag).after, hfounded.mono hsub⟩

theorem Regular.after (h : Regular ∅ none x) : Regular known fresh x :=
  h.mono (Set.empty_subset known)

theorem Regular.bind (hx : Regular known fresh x) (hf : ∀ a, Regular known none (f a)) :
    Regular known fresh (x >>= f) := by
  obtain ⟨s, rfl, hs, hfounded⟩ := hx
  choose k hk horderly hknown using hf
  refine ⟨s.bind k, ?_, fun flag => (hs flag).bind fun a => horderly a flag, hfounded.bind hknown⟩
  rw [Script.run_bind, funext hk]

/-! ## Errors -/

theorem regular_failOn {token : Option Token} {fault : SyntaxFault} :
    Regular (insert token known) fresh (failOn token fault : Parse α) :=
  ⟨.fail fun l => .syntaxError
    (.here l.stream ((token.map (·.span.start)).getD l.stream.position) fault), rfl,
    fun _ => trivial, .inr ⟨token, Set.mem_insert token known, fault, rfl⟩⟩

theorem regular_failAt {t : Token} {fault : SyntaxFault} :
    Regular (insert (some t) known) fresh (failAt t.span.start fault : Parse α) :=
  regular_failOn

theorem regular_unexpected {token : Option Token} :
    Regular (insert token known) fresh (unexpected token : Parse α) := by
  cases token with
  | none => exact regular_failOn
  | some t => exact regular_failOn

theorem regular_expected {token : Option Token} {what : String} :
    Regular (insert token known) fresh (expected token what : Parse α) :=
  regular_failOn

theorem regular_exhausted : Regular known fresh (exhausted : Parse α) :=
  ⟨.fail fun _ => .exhausted, rfl, fun _ => trivial, .inl rfl⟩

/-! ## Tokens -/

theorem Regular.next {f : Option Token → Parse β}
    (hsome : ∀ t, Regular (insert (some t) known) (some t) (f (some t)))
    (hnone : Regular (insert none known) none (f none)) : Regular known fresh (next >>= f) := by
  choose k hk horderly hfounded using hsome
  obtain ⟨s, hs, hend, hknown⟩ := hnone
  refine ⟨.take fun t => t.elim s k, ?_, fun flag => ⟨hend flag, fun t => horderly t flag⟩, ?_⟩
  · have hrest : (fun t => (Option.elim t s k).run) = f := by
      funext t
      cases t with
      | none => exact hs
      | some t => exact hk t
    rw [Script.run, hrest]
  · rintro (- | t)
    · exact hknown
    · exact hfounded t

theorem Regular.push {t : Token} {f : Unit → Parse β}
    (h : Regular (insert (some t) known) none (f ())) :
    Regular (insert (some t) known) (some t) (push t >>= f) := by
  obtain ⟨s, hs, horderly, hfounded⟩ := h
  refine ⟨.giveBack t s, ?_, fun flag => ⟨rfl, horderly flag⟩, Set.mem_insert _ known, hfounded⟩
  rw [Script.run, hs]

theorem regular_push {t : Token} : Regular (insert (some t) known) (some t) (push t) := by
  rw [← bind_pure (push t)]
  exact .push .pure

theorem regular_next : Regular known fresh next := by
  rw [← bind_pure next]
  exact .next (fun _ => .pure) .pure

theorem Regular.nextRequired {f : Token → Parse β}
    (h : ∀ t, Regular (insert (some t) known) (some t) (f t)) :
    Regular known fresh (nextRequired >>= f) := by
  have hend : (unexpected none >>= f) = unexpected none := rfl
  unfold Grammar.nextRequired
  rw [bind_assoc]
  apply Regular.next
  · intro t
    rw [pure_bind]
    exact h t
  · rw [hend]
    exact regular_unexpected

theorem regular_nextRequired : Regular known fresh nextRequired := by
  rw [← bind_pure Grammar.nextRequired]
  exact .nextRequired fun _ => .pure

theorem regular_peek : Regular known fresh peek := by
  unfold peek
  exact .next (fun _ => .push .pure) .pure

theorem regular_accept {fits : Token → Bool} : Regular known fresh (accept fits) := by
  unfold accept
  refine .next (fun t => ?_) .pure
  dsimp only
  split
  · exact .pure
  · exact .push .pure

theorem regular_expect {fits : Token → Bool} {what : String} :
    Regular known fresh (expect fits what) := by
  unfold expect
  refine .next (fun t => ?_) regular_expected
  dsimp only
  split
  · exact .pure
  · exact regular_expected

theorem Regular.accept {fits : Token → Bool} {y z : Parse β} (hy : Regular known none y)
    (hz : Regular known none z) : Regular known fresh (do if ← accept fits then y else z) := by
  refine regular_accept.bind fun fit => ?_
  split
  · exact hy
  · exact hz

theorem regular_skipWhile {fits : Token → Bool} {n : Nat} :
    Regular known fresh (skipWhile fits n) := by
  induction n generalizing known fresh with
  | zero => exact regular_exhausted
  | succ n ih => exact .accept ih .pure

theorem Regular.skipWhile {fits : Token → Bool} {n : Nat} {f : Unit → Parse β}
    (h : Regular known none (f ())) : Regular known fresh (skipWhile fits n >>= f) :=
  regular_skipWhile.bind fun _ => h

/-! ## Spans and scopes -/

theorem regular_spanFrom {start : Span} : Regular known fresh (spanFrom start) :=
  ⟨.look fun last _ _ => .done (start.join last), rfl, fun _ _ _ => rfl, fun _ _ _ => trivial⟩

theorem regular_siteAt {span : Span} : Regular known fresh (siteAt span) :=
  ⟨.look fun _ source _ => .done ⟨source, span.start.offset⟩, rfl, fun _ _ _ => rfl,
    fun _ _ _ => trivial⟩

theorem Regular.spanFrom {start : Span} {f : Span → α} : Regular known fresh (do
    let span ← spanFrom start
    Pure.pure (f span)) :=
  regular_spanFrom.bind fun _ => .pure

theorem Regular.noDo {f : Bool → Parse β} (h : ∀ flag, Regular known fresh (f flag)) :
    Regular known fresh (do f (← get).noDo) := by
  choose k hk horderly hfounded using h
  refine ⟨.look fun _ _ flag => k flag, ?_, fun flag _ _ => horderly flag flag,
    fun _ _ flag => hfounded flag⟩
  simp only [Script.run, hk]

theorem regular_withNoDo {flag : Bool} (h : Regular known none x) :
    Regular known fresh (withNoDo flag x) := by
  obtain ⟨s, rfl, horderly, hfounded⟩ := h
  refine ⟨.look fun _ _ saved => .reserve flag (s.bind fun a => .reserve saved (.done a)), ?_,
    fun home _ _ => ?_, fun _ _ saved => hfounded.bind fun _ => trivial⟩
  · simp only [Script.run, Script.run_bind]
    rfl
  · exact (horderly flag).after.bind fun _ => rfl

/-! ## Statement lists and parameters -/

variable {r : Rules} {n : Nat}

/-- The rules are regular, wherever they are used. -/
def Rules.AreRegular (r : Rules) : Prop :=
  ∀ rule {known : Set (Option Token)} {fresh : Option Token}, Regular known fresh (r rule)

theorem regular_endOfCommand : Regular known fresh endOfCommand := by
  unfold endOfCommand
  refine .next (fun t => ?_) .pure
  dsimp only
  split
  · exact .pure
  · split
    · exact regular_push
    · exact regular_unexpected

section Rules

variable (hr : r.AreRegular)
include hr

theorem regular_body {closers : List String} : Regular known fresh (body r closers n) := by
  induction n generalizing known fresh with
  | zero => exact regular_exhausted
  | succ n ih =>
    unfold body
    refine .skipWhile (.next (fun t => ?_) regular_expected)
    dsimp only
    split
    · exact .pure
    · refine .push ((hr _).bind fun node => regular_endOfCommand.bind fun _ => ?_)
      exact ih.bind fun _ => .pure

theorem regular_bodyUntil {closer : String} : Regular known fresh (bodyUntil r n closer) :=
  (regular_body hr).bind fun _ => .pure

end Rules

theorem regular_param {params : Params} : Regular known fresh (param params) := by
  unfold param
  refine .nextRequired fun t => ?_
  split
  · exact regular_expect.bind fun _ => .pure
  · split
    · exact .pure
    · exact regular_expected

theorem regular_paramsUntil {closer : String} {params : Params} :
    Regular known fresh (paramsUntil closer n params) := by
  induction n generalizing known fresh params with
  | zero => exact regular_exhausted
  | succ n ih =>
    unfold paramsUntil
    refine regular_param.bind fun params => .skipWhile (.next (fun t => ?_) regular_expected)
    dsimp only
    split
    · exact .skipWhile ih
    · split
      · exact .pure
      · exact regular_expected

theorem regular_paramList {closer : String} : Regular known fresh (paramList n closer) :=
  .skipWhile (.accept .pure regular_paramsUntil)

theorem regular_bareParams {params : Params} : Regular known fresh (bareParams n params) := by
  induction n generalizing known fresh params with
  | zero => exact regular_exhausted
  | succ n ih => exact regular_param.bind fun params => .accept ih .pure

theorem regular_methodParams : Regular known fresh (methodParams n) := by
  unfold methodParams
  refine .next (fun t => ?_) .pure
  dsimp only
  split
  · exact regular_paramList
  · refine .push ?_
    split
    · exact regular_bareParams
    · exact .pure

theorem regular_lambdaParams : Regular known fresh (lambdaParams n) := by
  unfold lambdaParams
  refine .next (fun t => ?_) .pure
  dsimp only
  split
  · exact regular_paramList
  · refine .push ?_
    split
    · exact regular_bareParams
    · exact .pure

theorem regular_blockParams : Regular known fresh (blockParams n) := by
  unfold blockParams
  refine .next (fun t => ?_) .pure
  dsimp only
  split
  · exact .pure
  · split
    · exact regular_paramList
    · exact .push .pure

/-! ## Calls -/

theorem regular_afterComma {others : Parse Args} (h : Regular known none others) :
    Regular known fresh (afterComma n others) :=
  .accept (.skipWhile h) .pure

theorem regular_blockOpener : Regular known fresh blockOpener := by
  unfold blockOpener
  refine .next (fun t => ?_) .pure
  dsimp only
  split
  · exact .pure
  · refine Regular.noDo (f := fun flag => if t.isKeyword "do" && !flag then
      pure (some (t.span, "end")) else do push t; pure none) fun flag => ?_
    split
    · exact .pure
    · exact .push .pure

theorem regular_parenFollows : Regular known fresh parenFollows := by
  refine regular_peek.bind fun t => ?_
  cases t with
  | none => exact .pure
  | some t => exact .pure

section Rules

variable (hr : r.AreRegular)
include hr

theorem regular_argument {others : Parse Args} (h : Regular known none others) :
    Regular known none (argument r n others) := by
  refine (hr _).bind fun arg => .accept ?_ ?_
  · refine .skipWhile ((hr _).bind fun value => ?_)
    exact (regular_afterComma h).bind fun _ => .pure
  · exact (regular_afterComma h).bind fun _ => .pure

theorem regular_argsLoop : Regular known fresh (argsLoop r n) := by
  induction n generalizing known fresh with
  | zero => exact regular_exhausted
  | succ n ih =>
    unfold argsLoop
    refine .next (fun t => ?_) (regular_argument hr ih)
    dsimp only
    split
    · exact (hr _).bind fun _ => .pure
    · exact .push (regular_argument hr ih)

theorem regular_commandArgs : Regular known fresh (commandArgs r n) :=
  (regular_argsLoop hr).bind fun _ => .pure

theorem regular_parenArgs : Regular known fresh (parenArgs r n) := by
  refine regular_withNoDo (.skipWhile (.accept .pure ?_))
  exact (regular_commandArgs hr).bind fun _ => .skipWhile (regular_expect.bind fun _ => .pure)

theorem regular_itemsUntil {closer : String} : Regular known fresh (itemsUntil r closer n) := by
  induction n generalizing known fresh with
  | zero => exact regular_exhausted
  | succ n ih =>
    unfold itemsUntil
    refine (hr _).bind fun item => .skipWhile (.next (fun t => ?_) regular_expected)
    dsimp only
    split
    · exact .skipWhile (.accept .pure (ih.bind fun _ => .pure))
    · split
      · exact .pure
      · exact regular_expected

theorem regular_listUntil {closer : String} : Regular known fresh (listUntil r n closer) :=
  regular_withNoDo (.skipWhile (.accept .pure (regular_itemsUntil hr)))

theorem regular_blockLiteral : Regular known fresh (blockLiteral r n) := by
  refine regular_blockOpener.bind fun opener => ?_
  cases opener with
  | none => exact .pure
  | some opener =>
    refine regular_siteAt.bind fun site => regular_withNoDo ?_
    exact regular_blockParams.bind fun _ => (regular_bodyUntil hr).bind fun _ => .pure

theorem regular_callArgs : Regular known fresh (callArgs r n) := by
  unfold callArgs
  refine .next (fun t => ?_) .pure
  dsimp only
  split
  · exact regular_parenArgs hr
  · refine .push ?_
    split
    · exact regular_commandArgs hr
    · exact .pure

theorem regular_callRest {receiver : Option Node} {name : String} {nameSpan : Span} :
    Regular known fresh (callRest r n receiver name nameSpan) := by
  refine (regular_callArgs hr).bind fun args => ?_
  obtain ⟨args, given⟩ := args
  have hrest : ∀ block, Regular known none (do
      let span ← spanFrom ((receiver.map Node.span).getD nameSpan)
      pure (⟨span, .call receiver name args block⟩ : Node)) := fun _ => .spanFrom
  cases given with
  | none => exact (regular_blockLiteral hr).bind hrest
  | literal block => exact hrest _
  | value node => exact hrest _

theorem regular_memberOf {term : Node} {scope : Bool} :
    Regular known fresh (memberOf r n term scope) := by
  refine .skipWhile (.nextRequired fun name => ?_)
  split
  · exact regular_expected
  · split
    · refine regular_parenFollows.bind fun paren => ?_
      split
      · exact regular_callRest hr
      · exact .pure
    · exact regular_callRest hr

theorem regular_chain {term : Node} : Regular known fresh (chain r n term) := by
  induction n generalizing known fresh term with
  | zero => exact regular_exhausted
  | succ n ih =>
    unfold chain
    refine .next (fun t => ?_) .pure
    dsimp only
    split
    · exact (regular_memberOf hr).bind fun _ => ih
    · split
      · exact (regular_listUntil hr).bind fun _ => regular_spanFrom.bind fun _ => ih
      · exact .push .pure

theorem regular_optionalArgs : Regular known fresh (optionalArgs r n) :=
  (regular_callArgs hr).bind fun _ => .pure

theorem regular_optionalValue : Regular known fresh (optionalValue r) := by
  refine regular_peek.bind fun t => ?_
  cases t with
  | none => exact .pure
  | some t =>
    dsimp only
    split
    · exact (hr _).bind fun _ => .pure
    · exact .pure

end Rules

/-! ## Terms -/

theorem regular_number {t : Token} {negative : Bool} :
    Regular (insert (some t) known) fresh (number t negative) := by
  unfold number
  split
  · exact .pure
  · dsimp only
    split
    · exact .pure
    · exact regular_failAt

theorem regular_thenKeyword : Regular known fresh (thenKeyword n) :=
  .skipWhile (regular_accept.bind fun _ => .pure)

theorem regular_methodName {t : Token} :
    Regular (insert (some t) known) fresh (methodName t) := by
  have hmark : ∀ {fresh : Option Token} {x y : String}, Regular (insert (some t) known) fresh
      (do if ← accept isSetterMark then pure x else pure y) := .accept .pure .pure
  unfold methodName
  split
  · exact hmark
  · exact hmark
  · split
    · exact .pure
    · exact regular_expected
  · split
    · exact .pure
    · split
      · exact regular_expect.bind fun _ => hmark
      · exact regular_expected
  · exact regular_expected

/-- The token that begins the name of a method is in hand behind the head. -/
theorem Regular.methodHead {f : Option Node × Token → Parse β}
    (h : ∀ head, Regular (insert (some head.2) known) none (f head)) :
    Regular known fresh (methodHead >>= f) := by
  unfold Grammar.methodHead
  rw [bind_assoc]
  refine .nextRequired fun first => ?_
  split
  · rw [bind_assoc]
    refine regular_accept.bind fun dot => ?_
    split
    · rw [bind_assoc]
      refine .nextRequired fun name => ?_
      rw [pure_bind]
      exact (h _).mono (Set.insert_subset_insert (Set.subset_insert _ known))
    · rw [pure_bind]
      exact h (none, first)
  · rw [pure_bind]
    exact (h (none, first)).mono subset_rfl

theorem regular_methodHead : Regular known fresh methodHead := by
  rw [← bind_pure Grammar.methodHead]
  exact .methodHead fun _ => .pure

theorem regular_pathRest {path : Node} : Regular known fresh (pathRest n path) := by
  induction n generalizing known fresh path with
  | zero => exact regular_exhausted
  | succ n ih => exact .accept (regular_expect.bind fun _ => ih) .pure

theorem regular_classPath : Regular known fresh (classPath n) :=
  regular_expect.bind fun _ => regular_pathRest

theorem regular_spanning {start : Span} {part : Parse Form} (h : Regular ∅ none part) :
    Regular known fresh (spanning start part) :=
  h.after.bind fun _ => .spanFrom

section Rules

variable (hr : r.AreRegular)
include hr

theorem regular_parenStatements : Regular known fresh (parenStatements r n) := by
  induction n generalizing known fresh with
  | zero => exact regular_exhausted
  | succ n ih =>
    unfold parenStatements
    refine (hr _).bind fun node => .next (fun t => ?_) regular_expected
    dsimp only
    split
    · exact .pure
    · split
      · exact .skipWhile (.accept .pure (ih.bind fun _ => .pure))
      · exact regular_expected

theorem regular_parenthesized {start : Span} : Regular known fresh (parenthesized r n start) := by
  refine (regular_withNoDo (.skipWhile (.accept .pure (regular_parenStatements hr)))).bind
    fun nodes => regular_spanFrom.bind fun span => ?_
  split
  · exact .pure
  · exact .pure
  · exact .pure

theorem regular_pairsUntil : Regular known fresh (pairsUntil r n) := by
  induction n generalizing known fresh with
  | zero => exact regular_exhausted
  | succ n ih =>
    unfold pairsUntil
    refine (hr _).bind fun key => .skipWhile (regular_expect.bind fun _ => .skipWhile ?_)
    refine (hr _).bind fun value => .skipWhile (.next (fun t => ?_) regular_expected)
    dsimp only
    split
    · exact .skipWhile (.accept .pure (ih.bind fun _ => .pure))
    · split
      · exact .pure
      · exact regular_expected

theorem regular_hashLiteral {start : Span} : Regular known fresh (hashLiteral r n start) :=
  (regular_withNoDo (.skipWhile (.accept .pure (regular_pairsUntil hr)))).bind fun _ => .spanFrom

theorem regular_lambda {start : Span} : Regular known fresh (lambda r n start) := by
  refine regular_lambdaParams.bind fun params => regular_blockOpener.bind fun opener => ?_
  cases opener with
  | none => exact .next (fun _ => regular_expected) regular_expected
  | some opener =>
    exact (regular_withNoDo (regular_bodyUntil hr)).bind fun _ =>
      regular_siteAt.bind fun _ => .spanFrom

theorem regular_otherBranch {closer : Token} : Regular known fresh (otherBranch r n closer) := by
  unfold otherBranch
  split
  · exact (hr _).bind fun _ => .pure
  · split
    · exact regular_bodyUntil hr
    · exact .pure

theorem regular_conditional {start : Span} {negate : Bool} :
    Regular known fresh (conditional r n start negate) := by
  refine (hr _).bind fun _ => regular_thenKeyword.bind fun _ => ?_
  exact (regular_body hr).bind fun _ => (regular_otherBranch hr).bind fun _ => .spanFrom

theorem regular_loopHeader : Regular known fresh (loopHeader r n) :=
  (regular_withNoDo (hr _)).bind fun _ => .skipWhile (regular_accept.bind fun _ => .pure)

theorem regular_loop {start : Span} {wanted : Bool} : Regular known fresh (loop r n start wanted) :=
  (regular_loopHeader hr).bind fun _ => (regular_bodyUntil hr).bind fun _ => .spanFrom

theorem regular_forEach {start : Span} : Regular known fresh (forEach r n start) := by
  refine regular_expect.bind fun name => regular_expect.bind fun _ => ?_
  refine (regular_loopHeader hr).bind fun _ => (regular_bodyUntil hr).bind fun _ => ?_
  exact regular_siteAt.bind fun _ => .spanFrom

theorem regular_define {start : Span} : Regular known fresh (define r n start) := by
  refine .methodHead fun _ => regular_methodName.bind fun _ => ?_
  refine regular_methodParams.bind fun _ => (regular_bodyUntil hr).bind fun _ => ?_
  exact regular_siteAt.bind fun _ => .spanFrom

theorem regular_superclass : Regular known fresh (superclass r) :=
  .accept ((hr _).bind fun _ => .pure) .pure

theorem regular_openClass {start : Span} : Regular known fresh (openClass r n start) :=
  regular_classPath.bind fun _ => (regular_superclass hr).bind fun _ =>
    (regular_bodyUntil hr).bind fun _ => .spanFrom

theorem regular_openModule {start : Span} : Regular known fresh (openModule r n start) :=
  regular_classPath.bind fun _ => (regular_bodyUntil hr).bind fun _ => .spanFrom

theorem regular_nameOrCall {t : Token} : Regular known fresh (nameOrCall r n t) := by
  have hrest : ∀ isCall : Bool, Regular known none (if isCall then callRest r n none t.text t.span
      else pure ⟨t.span, .localVar t.text⟩) := by
    intro isCall
    split
    · exact regular_callRest hr
    · exact .pure
  refine regular_peek.bind fun following => ?_
  cases following with
  | none => exact hrest false
  | some following =>
    dsimp only
    split
    · exact hrest true
    · split
      · exact Regular.noDo (f := fun flag => if !flag then callRest r n none t.text t.span
          else pure ⟨t.span, .localVar t.text⟩) fun flag => hrest _
      · exact hrest _

theorem regular_word {t : Token} :
    Regular (insert (some t) known) fresh (word r n t) := by
  unfold word
  split
  case h_5 | h_6 => exact regular_conditional hr
  case h_7 | h_8 => exact regular_loop hr
  case h_9 => exact regular_forEach hr
  case h_10 => exact regular_define hr
  case h_11 => exact regular_openClass hr
  case h_12 => exact regular_openModule hr
  case h_13 => exact regular_spanning ((regular_bodyUntil hr).bind fun _ => .pure)
  case h_14 => exact (hr _).bind fun _ => .pure
  case h_15 | h_16 => exact regular_spanning ((regular_optionalArgs hr).bind fun _ => .pure)
  case h_17 | h_18 => exact regular_spanning ((regular_optionalValue hr).bind fun _ => .pure)
  case h_22 =>
    split
    · exact regular_unexpected
    · exact regular_nameOrCall hr
  all_goals exact .pure

theorem regular_bracket {t : Token} :
    Regular (insert (some t) known) fresh (bracket r n t) := by
  unfold bracket
  split
  · exact regular_parenthesized hr
  · exact regular_spanning ((regular_listUntil hr).bind fun _ => .pure)
  · exact regular_hashLiteral hr
  · exact regular_expect.bind fun _ => .pure
  · exact regular_unexpected

theorem regular_primary : Regular known fresh (primary r n) := by
  refine .nextRequired fun t => ?_
  split
  case h_1 | h_2 => exact regular_number.bind fun _ => .pure
  case h_8 =>
    refine regular_parenFollows.bind fun paren => ?_
    split
    · exact regular_callRest hr
    · exact .pure
  case h_9 => exact regular_word hr
  case h_10 => exact regular_bracket hr
  case h_11 =>
    split
    · exact regular_lambda hr
    · exact regular_unexpected
  case h_12 => exact regular_unexpected
  all_goals exact .pure

end Rules

/-! ## Operators -/

theorem regular_leftAssoc {operand : Parse Node} {operator? : Token → Option (Node → Node → Form)}
    (hoperand : Regular ∅ none operand) {left : Node} :
    Regular known fresh (leftAssoc operand operator? n left) := by
  induction n generalizing known fresh left with
  | zero => exact regular_exhausted
  | succ n ih =>
    unfold leftAssoc
    refine .next (fun t => ?_) .pure
    dsimp only
    split
    · exact .push .pure
    · exact .skipWhile (hoperand.after.bind fun _ => ih)

section Rules

variable (hr : r.AreRegular)
include hr

theorem regular_operand : Regular known fresh (operand r n) := by
  refine .nextRequired fun t => ?_
  split
  · refine .nextRequired fun following => ?_
    split
    · exact regular_number.bind fun _ => regular_chain hr
    · exact .push ((hr _).bind fun _ => .pure)
  · split
    · exact (hr _)
    · split
      · exact (hr _).bind fun _ => .pure
      · exact .push ((regular_primary hr).bind fun _ => regular_chain hr)

theorem regular_binary {levels : List (List String)} : Regular known fresh (binary r n levels) := by
  induction levels generalizing known fresh with
  | nil => exact hr _
  | cons operators tighter ih => exact ih.bind fun _ => regular_leftAssoc ih

theorem regular_conjunction : Regular known fresh (conjunction r n) :=
  (regular_binary hr).bind fun _ => regular_leftAssoc (regular_binary hr)

theorem regular_value : Regular known fresh (value r n) :=
  (regular_conjunction hr).bind fun _ => regular_leftAssoc (regular_conjunction hr)

theorem regular_expression : Regular known fresh (expression r n) := by
  refine (hr _).bind fun left => .next (fun t => ?_) .pure
  dsimp only
  split
  · exact .push .pure
  · split
    · exact regular_failAt
    · exact .skipWhile ((hr _).bind fun _ => .pure)

theorem regular_negation : Regular known fresh (negation r) := by
  refine .nextRequired fun t => ?_
  split
  · exact (hr _).bind fun _ => .pure
  · exact .push (hr _)

theorem regular_clause : Regular known fresh (clause r n) :=
  (hr _).bind fun _ => regular_leftAssoc (hr _)

theorem regular_modifiers {node : Node} : Regular known fresh (modifiers r n node) := by
  induction n generalizing known fresh node with
  | zero => exact regular_exhausted
  | succ n ih =>
    unfold modifiers
    refine .next (fun t => ?_) .pure
    dsimp only
    split
    · exact .push .pure
    · exact (hr _).bind fun _ => ih

theorem regular_statement : Regular known fresh (statement r n) :=
  (hr _).bind fun _ => regular_modifiers hr

/-! ## Programs -/

theorem regular_step {rule : Rule} : Regular known fresh (step n r rule) := by
  unfold step
  cases rule with
  | statement => exact regular_statement hr
  | clause => exact regular_clause hr
  | negation => exact regular_negation hr
  | expression => exact regular_expression hr
  | value => exact regular_value hr
  | operand => exact regular_operand hr
  | conditional start => exact regular_conditional hr

theorem regular_command : Regular known fresh (command r n) := by
  refine .skipWhile (regular_peek.bind fun t => ?_)
  cases t with
  | none => exact .pure
  | some t => exact (hr _).bind fun _ => regular_endOfCommand.bind fun _ => .pure

theorem regular_commands : Regular known fresh (commands r n) := by
  induction n generalizing known fresh with
  | zero => exact regular_exhausted
  | succ n ih =>
    refine (regular_command hr).bind fun node => ?_
    cases node with
    | none => exact .pure
    | some node => exact ih.bind fun _ => .pure

end Rules

theorem regular_rules (n : Nat) : (rules n).AreRegular := by
  intro rule known fresh
  induction n generalizing rule known fresh with
  | zero => exact regular_exhausted
  | succ n ih => exact regular_step ih

/-! ## All parts of the parser -/

/-- The functions of the grammar that read something off the cursor, with rules to go on with. -/
inductive Routine (r : Rules) : {α : Type} → Parse α → Prop
  | rule (rule : Rule) : Routine r (r rule)
  | next : Routine r next
  | nextRequired : Routine r nextRequired
  | peek : Routine r peek
  | accept (fits : Token → Bool) : Routine r (accept fits)
  | expect (fits : Token → Bool) (what : String) : Routine r (expect fits what)
  | skipWhile (fits : Token → Bool) (n : Nat) : Routine r (skipWhile fits n)
  | endOfCommand : Routine r endOfCommand
  | body (closers : List String) (n : Nat) : Routine r (body r closers n)
  | bodyUntil (n : Nat) (closer : String) : Routine r (bodyUntil r n closer)
  | param (params : Params) : Routine r (param params)
  | paramsUntil (closer : String) (n : Nat) (params : Params) :
      Routine r (paramsUntil closer n params)
  | paramList (n : Nat) (closer : String) : Routine r (paramList n closer)
  | bareParams (n : Nat) (params : Params) : Routine r (bareParams n params)
  | methodParams (n : Nat) : Routine r (methodParams n)
  | lambdaParams (n : Nat) : Routine r (lambdaParams n)
  | blockParams (n : Nat) : Routine r (blockParams n)
  | argument (n m : Nat) : Routine r (argument r n (argsLoop r m))
  | argsLoop (n : Nat) : Routine r (argsLoop r n)
  | commandArgs (n : Nat) : Routine r (commandArgs r n)
  | parenArgs (n : Nat) : Routine r (parenArgs r n)
  | itemsUntil (closer : String) (n : Nat) : Routine r (itemsUntil r closer n)
  | listUntil (n : Nat) (closer : String) : Routine r (listUntil r n closer)
  | blockOpener : Routine r blockOpener
  | blockLiteral (n : Nat) : Routine r (blockLiteral r n)
  | callArgs (n : Nat) : Routine r (callArgs r n)
  | callRest (n : Nat) (receiver : Option Node) (name : String) (nameSpan : Span) :
      Routine r (callRest r n receiver name nameSpan)
  | parenFollows : Routine r parenFollows
  | memberOf (n : Nat) (term : Node) (scope : Bool) : Routine r (memberOf r n term scope)
  | chain (n : Nat) (term : Node) : Routine r (chain r n term)
  | optionalArgs (n : Nat) : Routine r (optionalArgs r n)
  | optionalValue : Routine r (optionalValue r)
  | number (t : Token) (negative : Bool) : Routine r (number t negative)
  | parenStatements (n : Nat) : Routine r (parenStatements r n)
  | parenthesized (n : Nat) (start : Span) : Routine r (parenthesized r n start)
  | pairsUntil (n : Nat) : Routine r (pairsUntil r n)
  | hashLiteral (n : Nat) (start : Span) : Routine r (hashLiteral r n start)
  | lambda (n : Nat) (start : Span) : Routine r (lambda r n start)
  | thenKeyword (n : Nat) : Routine r (thenKeyword n)
  | otherBranch (n : Nat) (closer : Token) : Routine r (otherBranch r n closer)
  | conditional (n : Nat) (start : Span) (negate : Bool) : Routine r (conditional r n start negate)
  | loopHeader (n : Nat) : Routine r (loopHeader r n)
  | loop (n : Nat) (start : Span) (wanted : Bool) : Routine r (loop r n start wanted)
  | forEach (n : Nat) (start : Span) : Routine r (forEach r n start)
  | methodName (t : Token) : Routine r (methodName t)
  | methodHead : Routine r methodHead
  | define (n : Nat) (start : Span) : Routine r (define r n start)
  | pathRest (n : Nat) (path : Node) : Routine r (pathRest n path)
  | classPath (n : Nat) : Routine r (classPath n)
  | superclass : Routine r (superclass r)
  | openClass (n : Nat) (start : Span) : Routine r (openClass r n start)
  | openModule (n : Nat) (start : Span) : Routine r (openModule r n start)
  | nameOrCall (n : Nat) (t : Token) : Routine r (nameOrCall r n t)
  | word (n : Nat) (t : Token) : Routine r (word r n t)
  | bracket (n : Nat) (t : Token) : Routine r (bracket r n t)
  | primary (n : Nat) : Routine r (primary r n)
  | operand (n : Nat) : Routine r (operand r n)
  | binary (n : Nat) (levels : List (List String)) : Routine r (binary r n levels)
  | conjunction (n : Nat) : Routine r (conjunction r n)
  | value (n : Nat) : Routine r (value r n)
  | expression (n : Nat) : Routine r (expression r n)
  | negation : Routine r (negation r)
  | clause (n : Nat) : Routine r (clause r n)
  | modifiers (n : Nat) (node : Node) : Routine r (modifiers r n node)
  | statement (n : Nat) : Routine r (statement r n)
  | command (n : Nat) : Routine r (command r n)
  /-- Whole programs. -/
  | commands (n : Nat) : Routine r (commands r n)

theorem Routine.regular (hr : r.AreRegular) (hx : Routine r x) : Regular .univ none x := by
  cases hx with
  | rule rule => exact hr rule
  | next => exact regular_next
  | nextRequired => exact regular_nextRequired
  | peek => exact regular_peek
  | accept fits => exact regular_accept
  | expect fits what => exact regular_expect
  | skipWhile fits n => exact regular_skipWhile
  | endOfCommand => exact regular_endOfCommand
  | body closers n => exact regular_body hr
  | bodyUntil n closer => exact regular_bodyUntil hr
  | param params => exact regular_param
  | paramsUntil closer n params => exact regular_paramsUntil
  | paramList n closer => exact regular_paramList
  | bareParams n params => exact regular_bareParams
  | methodParams n => exact regular_methodParams
  | lambdaParams n => exact regular_lambdaParams
  | blockParams n => exact regular_blockParams
  | argument n m => exact regular_argument hr (regular_argsLoop hr)
  | argsLoop n => exact regular_argsLoop hr
  | commandArgs n => exact regular_commandArgs hr
  | parenArgs n => exact regular_parenArgs hr
  | itemsUntil closer n => exact regular_itemsUntil hr
  | listUntil n closer => exact regular_listUntil hr
  | blockOpener => exact regular_blockOpener
  | blockLiteral n => exact regular_blockLiteral hr
  | callArgs n => exact regular_callArgs hr
  | callRest n receiver name nameSpan => exact regular_callRest hr
  | parenFollows => exact regular_parenFollows
  | memberOf n term scope => exact regular_memberOf hr
  | chain n term => exact regular_chain hr
  | optionalArgs n => exact regular_optionalArgs hr
  | optionalValue => exact regular_optionalValue hr
  | number t negative => exact regular_number.of_insert
  | parenStatements n => exact regular_parenStatements hr
  | parenthesized n start => exact regular_parenthesized hr
  | pairsUntil n => exact regular_pairsUntil hr
  | hashLiteral n start => exact regular_hashLiteral hr
  | lambda n start => exact regular_lambda hr
  | thenKeyword n => exact regular_thenKeyword
  | otherBranch n closer => exact regular_otherBranch hr
  | conditional n start negate => exact regular_conditional hr
  | loopHeader n => exact regular_loopHeader hr
  | loop n start wanted => exact regular_loop hr
  | forEach n start => exact regular_forEach hr
  | methodName t => exact regular_methodName.of_insert
  | methodHead => exact regular_methodHead
  | define n start => exact regular_define hr
  | pathRest n path => exact regular_pathRest
  | classPath n => exact regular_classPath
  | superclass => exact regular_superclass hr
  | openClass n start => exact regular_openClass hr
  | openModule n start => exact regular_openModule hr
  | nameOrCall n t => exact regular_nameOrCall hr
  | word n t => exact (regular_word hr).of_insert
  | bracket n t => exact (regular_bracket hr).of_insert
  | primary n => exact regular_primary hr
  | operand n => exact regular_operand hr
  | binary n levels => exact regular_binary hr
  | conjunction n => exact regular_conjunction hr
  | value n => exact regular_value hr
  | expression n => exact regular_expression hr
  | negation => exact regular_negation hr
  | clause n => exact regular_clause hr
  | modifiers n node => exact regular_modifiers hr
  | statement n => exact regular_statement hr
  | command n => exact regular_command hr
  | commands n => exact regular_commands hr

/-- At every point of a parse the parser's state is in order. The cursor has a record of the moments
behind each token that was taken or given back, and a function of the grammar adds to it, whether it
succeeds or fails. From a cursor that is in step, as the beginning of a text is, it is in step at
all moments on record, of which the last is the present one: at most one token is given back, and
the last span is that of the last token that was taken and not given back, or of the beginning of
the text. A function that succeeds leaves `do` reserved as it was. -/
theorem parse_in_step :
    (∀ (source : SourceId) (text : Stream), (Cursor.start source text).InStep) ∧
    ∀ (n : Nat) (α : Type) (x : Parse α), Routine (rules n) x →
      (∀ c, c.InStep → (cursorAfter x c).InStep ∧ c.passed <:+ (cursorAfter x c).passed) ∧
      ∀ c a c', x c = .ok a c' → c'.noDo = c.noDo := by
  constructor
  · intro source text
    refine ⟨rfl, ?_⟩
    rintro m (- | ⟨_, ⟨⟩⟩)
    exact ⟨Nat.zero_le 1, rfl⟩
  · intro n α x hx
    obtain ⟨s, rfl, horderly⟩ := (hx.regular (regular_rules n)).steady
    constructor
    · intro c hc
      exact (horderly c.noDo).inStep hc
    · intro c a c' hok
      exact Script.noDo_of_orderly (horderly c.noDo) hok

/-- Reading a loop whose header ends in `do`. -/
theorem parse_in_step_loop :
    let start := Cursor.start ⟨"main", 0⟩ (.ofText "while f -1 do g end")
    let stop := cursorAfter (commands (rules 40) 40) start
    start.InStep ∧ Routine (rules 40) (commands (rules 40) 40) ∧ stop.InStep ∧
      start.passed <:+ stop.passed := by
  intro start stop
  have hstart : start.InStep := parse_in_step.1 _ _
  exact ⟨hstart, .commands 40, (parse_in_step.2 40 _ _ (.commands 40)).1 start hstart⟩

end Spinel.Grammar
