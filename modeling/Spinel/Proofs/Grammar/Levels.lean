import Spinel.Grammar.Program
import Spinel.Proofs.Grammar.Ahead

/-!
# Levels of operators

The loops for `||`, `&&` and the seven levels of binary operators have one shape. `layered` is that
shape for any list of levels, and `value_eq_layered` says that an expression without assignment is
read by it. What an operand reads is then read by every level up to a whole statement, unless the
token behind it continues one of them (`Token.endsExpression`, `Parses.value` up to
`parse_of_parses`).
-/

namespace Spinel.Grammar

/-! ## All levels at once -/

/-- What a level makes of a token: how it combines two operands, if it is an operator there. -/
abbrev Level := Token → Option (Node → Node → Form)

/-- Operands combined by the operators of the given levels, the loosest first. -/
def layered (operand : Parse Node) (n : Nat) : List Level → Parse Node
  | [] => operand
  | level :: tighter => do
    let left ← layered operand n tighter
    leftAssoc (layered operand n tighter) level n left

/-- The levels of an expression without assignment. -/
def levels : List Level := orOperator? :: andOperator? :: binaryLevels.map levelOperator?

theorem binary_eq_layered (r : Rules) (n : Nat) (operators : List (List String)) :
    binary r n operators = layered (r .operand) n (operators.map levelOperator?) := by
  induction operators with
  | nil => rfl
  | cons ops tighter ih => rw [binary, ih, List.map_cons, layered]

theorem value_eq_layered (r : Rules) (n : Nat) :
    value r n = layered (r .operand) n levels := by
  have hconj : conjunction r n =
      layered (r .operand) n (andOperator? :: binaryLevels.map levelOperator?) := by
    rw [conjunction, binary_eq_layered, layered]
  rw [value, hconj, levels, layered.eq_2 _ _ orOperator?]

section Layered

variable {operand : Parse Node} {level : Level} {n : Nat} {ts us : List Token} {Q : Node → Prop}

/-- The token ahead, if there is one, is none of the operators of a level. -/
def Level.Stops (level : Level) (us : List Token) : Prop :=
  ∀ t, us.head? = some t → ∀ span, level (t.placed span) = none

theorem leftAssoc_stop {left : Node} (hn : 0 < n) (hstop : level.Stops us) (hleft : Q left) :
    Parses (leftAssoc operand level n left) us us Q := by
  cases n with
  | zero => cases hn
  | succ n =>
    unfold leftAssoc
    cases us with
    | nil => exact .next_none (.refl hleft)
    | cons t us =>
      refine .next fun span => ?_
      simp only [hstop t rfl span]
      exact .push (.refl hleft)

/-- One more operator and the operand behind it. -/
theorem leftAssoc_step {left : Node} {t : Token} {form : Node → Node → Form} (hn : 0 < n)
    (ht : ∀ span, level (t.placed span) = some form)
    (hline : ∀ t, ts.head? = some t → t.kind ≠ .endOfLine) (hright : Parses operand ts us Q) :
    Reaches (leftAssoc operand level (n + 1) left) (t :: ts) us (leftAssoc operand level n)
      (fun node => ∃ right, Q right ∧ node.form = form left right) := by
  rw [leftAssoc]
  refine .next fun span => ?_
  simp only [ht span]
  refine .skipWhile hn (fun t h span => ?_) (.bind hright fun right hQ => ?_)
  · simpa using hline t h
  · exact fun c hc => ⟨_, c, ⟨right, hQ, rfl⟩, hc, rfl⟩

/-- What a level's operands read, the level reads, if no operator of it follows. -/
theorem layered_cons {tighter : List Level} (hn : 0 < n)
    (h : Parses (layered operand n tighter) ts us Q) (hstop : level.Stops us) :
    Parses (layered operand n (level :: tighter)) ts us Q := by
  rw [layered]
  exact .bind h fun left hleft => leftAssoc_stop hn hstop hleft

theorem layered_of_operand (hn : 0 < n) (h : Parses operand ts us Q) :
    ∀ levels : List Level, (∀ level ∈ levels, level.Stops us) →
      Parses (layered operand n levels) ts us Q
  | [], _ => h
  | level :: tighter, hstop =>
    layered_cons hn
      (layered_of_operand hn h tighter fun l hl => hstop l (List.mem_cons_of_mem _ hl))
      (hstop level List.mem_cons_self)

/-- The tighter levels of a list make up the operands of the looser ones. -/
theorem layered_append (looser tighter : List Level) :
    layered operand n (looser ++ tighter) = layered (layered operand n tighter) n looser := by
  induction looser with
  | nil => rfl
  | cons level looser ih => rw [List.cons_append, layered, layered, ih]

end Layered

/-! ## What ends an expression -/

/-- Whether a token can stand behind a term without belonging to it: it neither goes on with the
chain behind the term nor begins the arguments or the block of a call. -/
def endsTerm (t : Token) : Bool :=
  !(t.isSeparator "." || t.isSeparator "::" || t.isSeparator "[" || t.isSeparator "(" ||
    t.isSeparator "\x7b" || t.isKeyword "do" || startsArgs t)

/-- Whether a token ends every expression before it. -/
def endsExpression (t : Token) : Bool :=
  endsTerm t && levels.all (fun level => (level t).isNone) && (assignOperator? t).isNone &&
    (wordOperator? t).isNone && (modifier? t).isNone

/-- The tokens begin with one that ends every expression, or there are none. -/
def Ends (us : List Token) : Prop := ∀ t, us.head? = some t → endsExpression t = true

section Ends

variable {r : Rules} {n : Nat} {ts us : List Token} {Q : Node → Prop}

theorem Ends.nil : Ends [] := by
  intro t h
  cases h

theorem Ends.cons {t : Token} (h : endsExpression t = true) (us : List Token) : Ends (t :: us) := by
  intro t' h'
  cases h'
  exact h

/-- The operators of the levels do not depend on the place of a token. -/
theorem level_placed {level : Level} (h : level ∈ levels) (t : Token) (span : Span) :
    level (t.placed span) = level t := by
  simp only [levels, List.mem_cons, List.mem_map] at h
  rcases h with rfl | rfl | ⟨ops, -, rfl⟩ <;> rfl

theorem Ends.stops (h : Ends us) {level : Level} (hl : level ∈ levels) : level.Stops us := by
  intro t ht span
  have h := h t ht
  simp only [endsExpression, Bool.and_eq_true, List.all_eq_true, Option.isNone_iff_eq_none] at h
  rw [level_placed hl]
  exact h.1.1.1.2 level hl

theorem Parses.value (hn : 0 < n) (h : Parses (r .operand) ts us Q) (hend : Ends us) :
    Parses (Grammar.value r n) ts us Q := by
  rw [value_eq_layered]
  exact layered_of_operand hn h levels fun level hl => hend.stops hl

theorem Parses.expression (h : Parses (r .value) ts us Q) (hend : Ends us) :
    Parses (Grammar.expression r n) ts us Q := by
  refine .bind h fun node hQ => ?_
  cases us with
  | nil => exact .next_none (.refl hQ)
  | cons t us =>
    refine .next fun span => ?_
    have h := hend t rfl
    simp only [endsExpression, Bool.and_eq_true, Option.isNone_iff_eq_none] at h
    have hplaced : assignOperator? (t.placed span) = none := h.1.1.2
    simp only [hplaced]
    exact .push (.refl hQ)

theorem Parses.negation {t : Token} (ht : t.isKeyword "not" = false)
    (h : Parses (r .expression) (t :: ts) us Q) : Parses (Grammar.negation r) (t :: ts) us Q := by
  refine .nextRequired fun span => ?_
  simp only [Token.placed_isKeyword, ht, Bool.false_eq_true, if_false]
  exact .push h

theorem Parses.clause (hn : 0 < n) (h : Parses (r .negation) ts us Q) (hend : Ends us) :
    Parses (Grammar.clause r n) ts us Q := by
  refine .bind h fun node hQ => leftAssoc_stop hn (fun t ht span => ?_) hQ
  have h := hend t ht
  simp only [endsExpression, Bool.and_eq_true, Option.isNone_iff_eq_none] at h
  exact h.1.2

theorem Parses.statement (hn : 0 < n) (h : Parses (r .clause) ts us Q) (hend : Ends us) :
    Parses (Grammar.statement r n) ts us Q := by
  refine .bind h fun node hQ => ?_
  cases n with
  | zero => cases hn
  | succ n =>
    unfold modifiers
    cases us with
    | nil => exact .next_none (.refl hQ)
    | cons t us =>
      refine .next fun span => ?_
      have h := hend t rfl
      simp only [endsExpression, Bool.and_eq_true, Option.isNone_iff_eq_none] at h
      have hplaced : modifier? (t.placed span) = none := h.2
      simp only [hplaced]
      exact .push (.refl hQ)

end Ends

/-! ## From operands to programs -/

section Rules

variable {n : Nat} {t : Token} {ts us : List Token} {Q : Node → Prop}

/-- Three rules lead from an expression without assignment to one under `not`. -/
theorem Parses.rules_negation (ht : t.isKeyword "not" = false)
    (h : Parses (Grammar.value (rules n) n) (t :: ts) us Q) (hend : Ends us) :
    Parses (rules (n + 3) .negation) (t :: ts) us Q :=
  .negation ht (.expression h hend)

theorem Parses.rules_statement (ht : t.isKeyword "not" = false)
    (h : Parses (Grammar.value (rules n) n) (t :: ts) us Q) (hend : Ends us) :
    Parses (rules (n + 5) .statement) (t :: ts) us Q :=
  .statement (Nat.succ_pos _) (.clause (Nat.succ_pos _) (.rules_negation ht h hend) hend) hend

/-- A text that reads as the tokens of one expression is a program of one statement. -/
theorem parse_of_parses {source : SourceId} {text : String} {t : Token} {ts : List Token}
    (hterm : t.isTerminator = false) (hnot : t.isKeyword "not" = false)
    (hreads : Reads text.toList (t :: ts))
    (h : Parses (Grammar.value (rules (bound text.toList.length - 5))
      (bound text.toList.length - 5)) (t :: ts) [] Q) :
    ∃ node code, Q node ∧ parse source (.ofText text) = (.program [node], code) := by
  have hb : ∃ m, bound text.toList.length = m + 5 := by
    refine ⟨bound text.toList.length - 5, ?_⟩
    unfold bound
    omega
  obtain ⟨m, hm⟩ := hb
  rw [hm, Nat.add_sub_cancel] at h
  have hcommands : Parses (commands (rules (m + 5)) (m + 5)) (t :: ts) []
      (fun nodes => ∃ node, Q node ∧ nodes = [node]) := by
    rw [commands, command, bind_assoc]
    refine .skipWhile (Nat.succ_pos _) (fun t' ht' span => ?_) ?_
    · cases ht'
      exact hterm
    rw [bind_assoc]
    refine .peek fun span => ?_
    simp only [bind_assoc]
    refine .bind (.rules_statement hnot h .nil) fun node hQ => ?_
    rw [endOfCommand, bind_assoc]
    refine .next_none ?_
    simp only [pure_bind]
    rw [commands, command]
    simp only [bind_assoc]
    refine .skipWhile (Nat.succ_pos _) (fun t' ht' => by cases ht') (.peek_none ?_)
    simp only [pure_bind]
    exact .refl ⟨node, hQ, rfl⟩
  obtain ⟨nodes, c, ⟨node, hQ, rfl⟩, -, he⟩ :=
    hcommands (.start source (.ofText text)) (.start hreads)
  refine ⟨node, c.lexer.stream.availableText, hQ, ?_⟩
  have hprog : program source (.ofText text) = .ok [node] c := by
    rw [program]
    change commands (rules (bound text.toList.length)) (bound text.toList.length) _ = _
    rw [hm]
    exact he
  rw [parse, hprog]

end Rules

end Spinel.Grammar
