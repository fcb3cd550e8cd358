import Spinel.Proofs.Grammar.Levels

/-!
# Terms

What operands begin with, read on the tokens ahead: numerals, names, literals and brackets. A term
ends before the tokens behind it if these neither go on with its chain nor begin arguments
(`EndsTerm`).
-/

namespace Spinel.Grammar

/-- The tokens do not belong to a term before them. -/
def EndsTerm (us : List Token) : Prop := ∀ t, us.head? = some t → endsTerm t = true

theorem EndsTerm.cons {t : Token} (h : endsTerm t = true) (us : List Token) :
    EndsTerm (t :: us) := by
  intro t' h'
  cases h'
  exact h

theorem Ends.endsTerm {us : List Token} (h : Ends us) : EndsTerm us := by
  intro t ht
  have h := h t ht
  simp only [endsExpression, Bool.and_eq_true] at h
  exact h.1.1.1.1

section Operand

variable {r : Rules} {n : Nat} {t : Token} {ts us : List Token} {Q : Node → Prop}

theorem chain_stop {term : Node} (hn : 0 < n) (hend : EndsTerm us) (hQ : Q term) :
    Parses (chain r n term) us us Q := by
  cases n with
  | zero => cases hn
  | succ n =>
    unfold chain
    cases us with
    | nil => exact .next_none (.refl hQ)
    | cons t us =>
      refine .next fun span => ?_
      have h := hend t rfl
      simp only [Grammar.endsTerm, Bool.not_eq_true', Bool.or_eq_false_iff] at h
      simp only [Token.placed_isSeparator, h, Bool.or_self, Bool.false_and, Bool.false_eq_true,
        if_false]
      exact .push (.refl hQ)

/-- Whether a token is a sign or a negation before an operand. -/
def isSign (t : Token) : Bool :=
  t.isOperator "-" || t.isOperator "+" || t.isOperator "!" || t.isOperator "~"

theorem Parses.operand (hn : 0 < n) (hsign : isSign t = false)
    (h : Parses (primary r n) (t :: ts) us Q) (hend : EndsTerm us) :
    Parses (Grammar.operand r n) (t :: ts) us Q := by
  simp only [isSign, Bool.or_eq_false_iff] at hsign
  refine .nextRequired fun span => ?_
  simp only [Token.placed_isOperator, hsign, Bool.or_self, Bool.false_eq_true, if_false]
  exact .push (.bind h fun term hQ => chain_stop hn hend hQ)

/-! ## Numerals and names -/

theorem number_of_fits {negative : Bool} {value : Int64} (hk : t.kind = .integer)
    (hv : int64? (if negative then -(Text.decimalValue t.text.toList : Int)
      else (Text.decimalValue t.text.toList : Int)) = some value) :
    number t negative = pure (.integer value) := by
  unfold number
  have hf : (t.kind == TokenKind.float) = false := by rw [hk]; rfl
  simp only [hf, Bool.false_eq_true, if_false, hv]

theorem primary_integer {value : Int64} (hk : t.kind = .integer)
    (hv : int64? (Text.decimalValue t.text.toList : Int) = some value)
    (hQ : ∀ span, Q ⟨span, .integer value⟩) : Parses (primary r n) (t :: us) us Q := by
  refine .nextRequired fun span => ?_
  have hnum : number (t.placed span) false = pure (.integer value) :=
    number_of_fits hk (by simpa using hv)
  simp only [Token.placed_kind, hk, hnum, pure_bind]
  exact .refl (hQ span)

/-- The words that are no names. -/
def keywords : List String :=
  ["nil", "true", "false", "self", "if", "unless", "while", "until", "for", "def", "class",
    "module", "begin", "not", "yield", "super", "return", "next", "break", "redo", "retry"] ++
    reservedWords

theorem word_of_not_keyword (h : t.text ∉ keywords) : word r n t = nameOrCall r n t := by
  have hr : reservedWords.contains t.text = false := by
    rw [Bool.eq_false_iff, ne_eq, List.contains_iff_mem]
    exact fun hm => h (List.mem_append_right _ hm)
  unfold word
  split
  case h_22 => rw [hr]; rfl
  all_goals next heq => exact absurd (heq ▸ by decide) h

theorem primary_name (hk : t.kind = .identifier) (hname : t.text ∉ keywords) (hend : EndsTerm us)
    (hQ : ∀ span, Q ⟨span, .localVar t.text⟩) : Parses (primary r n) (t :: us) us Q := by
  refine .nextRequired fun span => ?_
  have hw : word r n (t.placed span) = nameOrCall r n (t.placed span) := word_of_not_keyword hname
  simp only [Token.placed_kind, hk, hw]
  unfold nameOrCall
  cases us with
  | nil =>
    refine .peek_none ?_
    exact .refl (hQ span)
  | cons following us =>
    refine .peek fun span' => ?_
    have h := hend following rfl
    simp only [Grammar.endsTerm, Bool.not_eq_true', Bool.or_eq_false_iff] at h
    have hargs : startsArgs (following.placed span') = false := h.2
    simp only [Token.placed_isSeparator, Token.placed_isKeyword, h, hargs, Bool.or_self,
      Bool.false_eq_true, if_false, pure_bind]
    exact .refl (hQ span)

/-! ## Parentheses -/

theorem primary_parenthesized {opening closing : Token} (hn : 0 < n)
    (hopen : opening.isSeparator "(" = true) (hclose : closing.isSeparator ")" = true)
    (hterm : t.isTerminator = false) (hnot : t.isSeparator ")" = false)
    (h : Parses (r .statement) (t :: ts) (closing :: us) Q) :
    Parses (primary r n) (opening :: t :: ts) us Q := by
  simp only [Token.isSeparator, Bool.and_eq_true, beq_iff_eq] at hopen
  have hstatements : Parses (parenStatements r n) (t :: ts) us
      (fun nodes => ∃ node, Q node ∧ nodes = [node]) := by
    cases n with
    | zero => cases hn
    | succ n =>
      rw [parenStatements]
      refine .bind h fun node hQ => .next fun span => ?_
      simp only [Token.placed_isSeparator, hclose, if_true]
      exact .refl ⟨node, hQ, rfl⟩
  have hbody : Parses (do
      skipTerminators n
      if ← acceptSeparator ")" then pure [] else parenStatements r n) (t :: ts) us
      (fun nodes => ∃ node, Q node ∧ nodes = [node]) := by
    refine .skipWhile hn (fun t' ht' span => ?_) (.accept_false (fun t' ht' span => ?_) ?_)
    · cases ht'
      exact hterm
    · cases ht'
      exact hnot
    · exact hstatements
  refine .nextRequired fun span => ?_
  simp only [Token.placed_kind, hopen.1, bracket, Token.placed_text, hopen.2, parenthesized]
  refine .bind (.withNoDo hbody) fun nodes hnodes => .spanFrom fun span => ?_
  obtain ⟨node, hQ, rfl⟩ := hnodes
  exact .refl hQ

end Operand

end Spinel.Grammar
