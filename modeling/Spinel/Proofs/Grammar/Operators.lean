import Spinel.Proofs.Grammar.Term
import Spinel.Proofs.Token.Spelling

/-!
# Infix operators on their levels

Which operators stand on which level, and how an expression is read that begins on one of them.
`ParsesAt n k` is the reading of an expression whose operators are not looser than level `k`. An
operator of level `k` is met in that level's loop, so `LoopsAt n k` says that this loop is reached,
and `LoopsAt.operator` that an operator with its right operand leads back to it. `Reached` is both,
which is what an operand of an operator has to provide (`Reached.operator`).
-/

namespace Spinel.Grammar

/-! ## Operators -/

/-- The infix operators by level, the loosest first. -/
def operatorLevels : List (List String) := ["||"] :: ["&&"] :: binaryLevels

/-- An infix operator and its level. -/
structure Operator where
  level : Nat
  text : String
  listed : text ∈ operatorLevels.getD level []

/-- What an operator makes of its operands. -/
def formOf (operator : String) (left right : Node) : Form :=
  if operator = ".." then .range left right false
  else if operator = "..." then .range left right true
  else if operator = "&&" then .both left right
  else if operator = "||" then .either left right
  else .call (some left) operator [right] .none

/-- An operator as a token. The bar is a separator to the lexer. -/
def operatorToken (operator : String) (spaced : Bool) : Token :=
  .bare (if operator = "|" then .separator else .operator) operator spaced

/-- All operators with their levels. -/
def operators : List (Nat × String) :=
  operatorLevels.zipIdx.flatMap fun (ops, level) => ops.map (level, ·)

theorem operators_eq : operators =
    [(0, "||"), (1, "&&"), (2, ".."), (2, "..."), (2, "=="), (2, "==="), (2, "<=>"), (2, "!="),
      (2, "<"), (2, ">"), (2, "<="), (2, ">="), (3, "|"), (3, "^"), (4, "&"), (5, "<<"), (5, ">>"),
      (6, "+"), (6, "-"), (7, "*"), (7, "/"), (7, "%"), (8, "**")] := rfl

namespace Operator

theorem forall_of_listed {P : Nat → String → Prop} (h : ∀ e ∈ operators, P e.1 e.2)
    (op : Operator) : P op.level op.text := by
  refine h (op.level, op.text) ?_
  have hlisted := op.listed
  rw [List.getD_eq_getElem?_getD] at hlisted
  cases hops : operatorLevels[op.level]? with
  | none => simp [hops] at hlisted
  | some ops =>
    simp only [hops, Option.getD_some] at hlisted
    rw [operators, List.mem_flatMap]
    exact ⟨(ops, op.level), List.mem_zipIdx_iff_getElem?.2 hops, List.mem_map.2 ⟨_, hlisted, rfl⟩⟩

/-- On its own level an operator combines two operands to its form. -/
theorem level_eq_form (op : Operator) (spaced : Bool) : ∃ level tighter,
    levels.drop op.level = level :: tighter ∧
      ∀ span, level ((operatorToken op.text spaced).placed span) = some (formOf op.text) := by
  refine op.forall_of_listed (P := fun k text => ∃ level tighter, levels.drop k = level :: tighter ∧
    ∀ span, level ((operatorToken text spaced).placed span) = some (formOf text)) ?_
  simp only [operators_eq, List.forall_mem_cons, List.not_mem_nil, false_implies, implies_true,
    and_true]
  and_intros <;> exact ⟨_, _, rfl, fun _ => rfl⟩

theorem firstToken?_text (op : Operator) (rest : List Char) :
    Lexeme.firstToken? (op.text.toList ++ ' ' :: rest) =
      some (operatorToken op.text false, ' ' :: rest) := by
  refine op.forall_of_listed (P := fun _ text => Lexeme.firstToken? (text.toList ++ ' ' :: rest) =
    some (operatorToken text false, ' ' :: rest)) ?_
  simp only [operators_eq, List.forall_mem_cons, List.not_mem_nil, false_implies, implies_true,
    and_true]
  and_intros <;> rfl

/-- No operator belongs to the operand before it or to a tighter level. -/
theorem endsTerm_and_not_tighter (op : Operator) (spaced : Bool) :
    endsTerm (operatorToken op.text spaced) = true ∧
      (levels.drop (op.level + 1)).all fun level =>
        (level (operatorToken op.text spaced)).isNone := by
  refine op.forall_of_listed (P := fun k text => endsTerm (operatorToken text spaced) = true ∧
    (levels.drop (k + 1)).all fun level => (level (operatorToken text spaced)).isNone) ?_
  cases spaced <;> decide

end Operator

/-! ## Reading level by level -/

/-- The tokens belong neither to an operand before them nor, as an operator, to level `k` or a
tighter one. -/
def Behind (k : Nat) (us : List Token) : Prop :=
  EndsTerm us ∧ ∀ level ∈ levels.drop k, level.Stops us

/-- An expression of the operators from level `k` on is read, with `n` as its bound. -/
def ParsesAt (n k : Nat) (ts us : List Token) (Q : Node → Prop) : Prop :=
  Parses (layered (rules n .operand) n (levels.drop k)) ts us Q

/-- The loop of level `k` is reached behind the tokens, with a counter that has lost no more than
one for each of them. -/
def LoopsAt (n k : Nat) (ts us : List Token) (Q : Node → Prop) : Prop :=
  ∃ level tighter m, levels.drop k = level :: tighter ∧ n ≤ m + ts.length ∧
    Reaches (layered (rules n .operand) n (levels.drop k)) (ts ++ us) us
      (leftAssoc (layered (rules n .operand) n tighter) level m) Q

section At

variable {n k : Nat} {ts us : List Token} {Q : Node → Prop}

theorem Behind.mono {j : Nat} (h : Behind k us) (hkj : k ≤ j) : Behind j us := by
  refine ⟨h.1, fun level hl => h.2 level ?_⟩
  obtain ⟨d, rfl⟩ := Nat.exists_eq_add_of_le hkj
  rw [← List.drop_drop] at hl
  exact List.mem_of_mem_drop hl

theorem Behind.of_ends (h : Ends us) : Behind k us :=
  ⟨h.endsTerm, fun _ hl => h.stops (List.mem_of_mem_drop hl)⟩

theorem Operator.behind (op : Operator) (spaced : Bool) (us : List Token) :
    Behind (op.level + 1) (operatorToken op.text spaced :: us) := by
  obtain ⟨hend, hnot⟩ := op.endsTerm_and_not_tighter spaced
  refine ⟨.cons hend us, fun level hl t ht span => ?_⟩
  cases ht
  rw [level_placed (List.mem_of_mem_drop hl)]
  simpa using List.all_eq_true.1 hnot level hl

/-- What is read on tighter levels is read on looser ones. -/
theorem ParsesAt.looser {j : Nat} (hn : 0 < n) (hkj : k ≤ j) (h : ParsesAt n j ts us Q)
    (hus : Behind k us) : ParsesAt n k ts us Q := by
  obtain ⟨d, rfl⟩ := Nat.exists_eq_add_of_le hkj
  unfold ParsesAt
  rw [← List.take_append_drop d (levels.drop k), layered_append, List.drop_drop]
  exact layered_of_operand hn h _ fun level hl => hus.2 level (List.mem_of_mem_take hl)

theorem LoopsAt.parsesAt (hn : ts.length < n) (h : LoopsAt n k ts us Q) (hus : Behind k us) :
    ParsesAt n k (ts ++ us) us Q := by
  obtain ⟨level, tighter, m, hdrop, hm, hreach⟩ := h
  have hstop : level.Stops us := hus.2 level (hdrop ▸ List.mem_cons_self)
  exact hreach.trans fun left hleft => leftAssoc_stop (by omega) hstop hleft

/-- The loop of a level is reached behind what is read on the tighter levels. -/
theorem ParsesAt.loopsAt (h : ParsesAt n (k + 1) (ts ++ us) us Q) (hk : k < levels.length) :
    LoopsAt n k ts us Q := by
  have hdrop : levels.drop k = levels[k] :: levels.drop (k + 1) := List.drop_eq_getElem_cons hk
  refine ⟨_, _, n, hdrop, Nat.le_add_right _ _, ?_⟩
  rw [hdrop, layered]
  exact .bind h fun left hleft => .refl hleft

end At

/-- The tokens are read on level `k`, and lead to the loop of that level. -/
def Reached (n k : Nat) (ts us : List Token) (Q : Node → Prop) : Prop :=
  (Behind k us → ParsesAt n k (ts ++ us) us Q) ∧
    (Behind (k + 1) us → k < levels.length → LoopsAt n k ts us Q)

theorem Reached.of_operand {n k : Nat} {ts us : List Token} {Q : Node → Prop} (hn : 0 < n)
    (h : EndsTerm us → Parses (rules n .operand) (ts ++ us) us Q) : Reached n k ts us Q := by
  have hat : ∀ j, Behind j us → ParsesAt n j (ts ++ us) us Q := fun j hus =>
    layered_of_operand hn (h hus.1) _ hus.2
  exact ⟨hat k, fun hus hk => (hat _ hus).loopsAt hk⟩

/-- An operator and its right operand lead from the loop of its level to that loop again. -/
theorem LoopsAt.operator {n : Nat} {op : Operator} {spaced : Bool} {ls rs us : List Token}
    {P R : Node → Prop} (hn : ls.length + rs.length + 1 < n)
    (hl : LoopsAt n op.level ls (operatorToken op.text spaced :: (rs ++ us)) P)
    (hr : ParsesAt n (op.level + 1) (rs ++ us) us R)
    (hline : ∀ t, (rs ++ us).head? = some t → t.kind ≠ .endOfLine) :
    LoopsAt n op.level (ls ++ operatorToken op.text spaced :: rs) us
      (fun node => ∃ l r, P l ∧ R r ∧ node.form = formOf op.text l r) := by
  obtain ⟨level, tighter, m, hdrop, hm, hreach⟩ := hl
  obtain ⟨level', tighter', hdrop', hlevel⟩ := op.level_eq_form spaced
  obtain ⟨rfl, rfl⟩ : level = level' ∧ tighter = tighter' := by
    simpa [hdrop] using hdrop'
  have htight : levels.drop (op.level + 1) = tighter := by
    rw [← List.drop_drop, hdrop, List.drop_one, List.tail_cons]
  obtain ⟨m, rfl⟩ : ∃ m', m = m' + 1 := ⟨m - 1, by omega⟩
  refine ⟨level, tighter, m, hdrop, by simp; omega, ?_⟩
  rw [List.append_assoc, List.cons_append]
  refine hreach.trans fun l hleft => ?_
  unfold ParsesAt at hr
  rw [htight] at hr
  refine (leftAssoc_step (by omega) hlevel hline hr).mono fun node h => ?_
  obtain ⟨r, hright, hform⟩ := h
  exact ⟨l, r, hleft, hright, hform⟩

/-- An operator with its operands is read on its level and on all looser ones, which take all of it
as their first operand. -/
theorem Reached.operator {n k : Nat} {op : Operator} {spaced : Bool} {ls rs us : List Token}
    {P R : Node → Prop} (hk : k ≤ op.level) (hn : ls.length + rs.length + 1 < n)
    (hl : Reached n op.level ls (operatorToken op.text spaced :: (rs ++ us)) P)
    (hr : Reached n (op.level + 1) rs us R)
    (hline : ∀ t, (rs ++ us).head? = some t → t.kind ≠ .endOfLine) :
    Reached n k (ls ++ operatorToken op.text spaced :: rs) us
      (fun node => ∃ l r, P l ∧ R r ∧ node.form = formOf op.text l r) := by
  have hlt : op.level < levels.length := by
    obtain ⟨level, tighter, hdrop, -⟩ := op.level_eq_form spaced
    have := congrArg List.length hdrop
    simp only [List.length_drop, List.length_cons] at this
    omega
  have hloops : Behind (op.level + 1) us → LoopsAt n op.level _ us _ := fun hus =>
    .operator hn (hl.2 (op.behind spaced _) hlt) (hr.1 hus) hline
  have hat : ∀ j ≤ op.level, Behind j us → ParsesAt n j _ us _ := fun j hj hus =>
    ((hloops (hus.mono (by omega))).parsesAt (by simp; omega) (hus.mono hj)).looser
      (by omega) hj hus
  refine ⟨hat k hk, fun hus hlt => ?_⟩
  rcases Nat.lt_or_eq_of_le hk with hk | rfl
  · exact (hat (k + 1) hk hus).loopsAt hlt
  · exact hloops hus

end Spinel.Grammar
