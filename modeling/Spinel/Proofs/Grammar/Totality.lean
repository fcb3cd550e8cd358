import Spinel.Proofs.Grammar.Progress

/-!
# Reading always comes to an end

Every text is read to a program or to an error in the text (`parse_total`). The depth that reading
is given is linear in the length of the text, and it is enough because nothing is repeated without
taking a token, tokens given back not counted as taken. A rule that has taken none goes on only with
rules of smaller rank (`Earlier`), and a loop takes a token in each of its rounds (`Loop`).
-/

namespace Spinel.Grammar

/-- A rule at a cursor comes before another at another one: fewer tokens are ahead, or as many and
its rank is smaller. -/
def Earlier (rule' : Rule) (c' : Cursor) (rule : Rule) (c : Cursor) : Prop :=
  c'.ahead < c.ahead ∨ c'.ahead = c.ahead ∧ rule'.rank < rule.rank

/-- The loops that rules are made of, each a function of how often it may go round. -/
inductive Loop (r : Rules) : {α : Type} → (Nat → Parse α) → Prop
  | commands : Loop r (commands r)
  | skipped (fits : Token → Bool) : Loop r (skipWhile fits)
  | body (closers : List String) : Loop r (body r closers)
  | params (closer : String) (params : Params) : Loop r fun n => paramsUntil closer n params
  | bareParams (params : Params) : Loop r fun n => bareParams n params
  | args : Loop r (argsLoop r)
  | items (closer : String) : Loop r (itemsUntil r closer)
  | chain (term : Node) : Loop r fun n => chain r n term
  | statements : Loop r (parenStatements r)
  | pairs : Loop r (pairsUntil r)
  | path (first : Node) : Loop r fun n => pathRest n first
  | binary (operators : List String) (tighter : List (List String)) (left : Node) :
      Loop r fun n => leftAssoc (binary r n tighter) (levelOperator? operators) n left
  | conjunction (left : Node) :
      Loop r fun n => leftAssoc (Grammar.binary r n binaryLevels) andOperator? n left
  | disjunction (left : Node) :
      Loop r fun n => leftAssoc (Grammar.conjunction r n) orOperator? n left
  | clause (left : Node) : Loop r fun n => leftAssoc (r .negation) wordOperator? n left
  | modifiers (node : Node) : Loop r fun n => modifiers r n node

variable {α : Type} {r : Rules} {m n : Nat} {c : Cursor}

theorem Settles.mono {m' : Nat} {k k' : α → Nat} {result : EStateM.Result Stop Cursor α}
    (h : Settles m k result) (hm : m ≤ m') (hk : ∀ a, k a ≤ k' a) : Settles m' k' result := by
  cases result with
  | ok a c => exact Nat.lt_of_lt_of_le h (hk a)
  | error e c =>
    cases e with
    | syntaxError e => trivial
    | exhausted => exact Nat.lt_of_lt_of_le h hm

/-- Rules that take something wherever less than so much is ahead. -/
theorem serve_of_settles {b : Nat}
    (h : ∀ rule c, c.ahead < b → Settles 0 (fun _ => c.ahead) (r rule c)) : r.Serve m b :=
  fun rule s hs c hc => (h rule c (by omega)).mono (Nat.zero_le m) fun _ => by omega

/-- A loop that may go round `n` times and is stopped then has taken `n` tokens less one. -/
theorem Loop.leaves {loop : Nat → Parse α} {s : Nat} (hl : Loop r loop) (hr : r.Serve m s)
    (hn : s < n + m) : Leaves m s (loop n) fun _ => s := by
  have hoperand : ∀ s', s' ≤ s → Leaves m s' (r .operand) fun _ => s' - 1 := hr .operand
  have hbinary : ∀ levels s', s' ≤ s → Leaves m s' (Grammar.binary r n levels) fun _ => s' - 1 :=
    leaves_binary hoperand hn
  -- Operands that take a token and are chained by operators of one level.
  have hchained : ∀ {operand : Parse Node} {operator? : Token → Option (Node → Node → Form)},
      (∀ s', s' ≤ s → Leaves m s' operand fun _ => s' - 1) → ∀ left,
        Leaves m s (leftAssoc operand operator? n left) fun _ => s := fun h left =>
    leaves_leftAssoc (fun s' hs' => (h s' (Nat.le_of_lt hs')).upTo (Nat.sub_le _ _)) hn left
  cases hl with
  | commands => exact leaves_commands hr (Nat.le_refl s) hn
  | skipped fits => exact leaves_skipWhile (Nat.le_of_lt hn)
  | body closers => exact leaves_body hr (Nat.le_refl s) hn closers
  | params closer params => exact leaves_paramsUntil hn closer params
  | bareParams params => exact leaves_bareParams hn params
  | args => exact leaves_argsLoop hr (Nat.le_refl s) hn
  | items closer => exact leaves_itemsUntil hr (Nat.le_refl s) hn closer
  | chain term => exact leaves_chain hr (Nat.le_refl s) hn term
  | statements => exact leaves_parenStatements hr (Nat.le_refl s) hn
  | pairs => exact leaves_pairsUntil hr (Nat.le_refl s) hn
  | path first => exact leaves_pathRest hn first
  | binary operators tighter left => exact hchained (hbinary tighter) left
  | conjunction left => exact hchained (hbinary _) left
  | disjunction left => exact hchained (leaves_level (hbinary _) hn) left
  | clause left => exact hchained (hr .negation) left
  | modifiers node => exact leaves_modifiers hr (Nat.le_succ s) hn node

/-- A rule goes on with earlier rules only: it never lacks the others. -/
theorem settles_step {rule : Rule} (hn : c.ahead + 1 < n)
    (hr : ∀ rule' c', Earlier rule' c' rule c → Settles 0 (fun _ => c'.ahead) (r rule' c')) :
    Settles 0 (fun _ => c.ahead) (step n r rule c) := by
  refine leaves_step (s := c.ahead + 1) ?_ (fun rule' hrank s' hs' c' hc' => ?_) hn c
    (Nat.lt_succ_self _)
  · exact serve_of_settles fun rule' c' hc' => hr rule' c' (.inl hc')
  · refine (hr rule' c' ?_).mono (Nat.le_refl 0) fun _ => by omega
    rcases Nat.lt_or_eq_of_le (Nat.le_of_lt_succ (Nat.lt_of_lt_of_le hc' hs')) with hlt | heq
    · exact .inl hlt
    · exact .inr ⟨heq, hrank⟩

/-- Reading any text gives a program or an error in the text: the depth it is given, linear in the
length of the text, is always enough, as is any larger one.

This is so because nothing is repeated without taking a token. A rule that succeeds leaves fewer
tokens ahead, whatever has been given back. It goes on with earlier rules only, so that it has all
it needs even where other rules are not to be had. And a loop, with rules that serve it, takes a
token in each round: where it is stopped because it may go round `n` times only, it has taken `n`
tokens less one, the last round being one that was not completed. -/
theorem parse_total :
    (∀ (source : SourceId) (s : Stream),
      (∃ nodes, (parse source s).1 = .program nodes) ∨
        ∃ e, (parse source s).1 = .syntaxError e) ∧
    (∀ (source : SourceId) (s : Stream) (n : Nat), 8 * (s.rest.length + 2) ≤ n →
      Settles 0 (fun _ => s.rest.length + 1) (commands (rules n) n (.start source s))) ∧
    (∀ (n : Nat) (rule : Rule) (c : Cursor), 7 * (c.ahead + 1) + 6 ≤ n →
      Settles 0 (fun _ => c.ahead) (rules n rule c)) ∧
    (∀ (n : Nat) (r : Rules) (rule : Rule) (c : Cursor), c.ahead + 1 < n →
      (∀ rule' c', Earlier rule' c' rule c → Settles 0 (fun _ => c'.ahead) (r rule' c')) →
      Settles 0 (fun _ => c.ahead) (step n r rule c)) ∧
    ∀ (α : Type) (r : Rules) (loop : Nat → Parse α), Loop r loop → ∀ (n : Nat) (c : Cursor),
      (∀ rule c', c'.ahead ≤ c.ahead → Settles 0 (fun _ => c'.ahead) (r rule c')) →
      Settles (c.ahead + 2 - n) (fun _ => c.ahead + 1) (loop n c) := by
  refine ⟨fun source s => ?_, fun source s n hn => ?_, fun n rule c hn => ?_,
    fun n r rule c hn hr => settles_step hn hr, fun α r loop hl n c hr => ?_⟩
  · unfold parse
    split
    · next nodes c _ => exact .inl ⟨nodes, rfl⟩
    · next e c _ => exact .inr ⟨e, rfl⟩
    · next c hc => exact absurd hc (program_ne_exhausted source s c)
  · exact leaves_program hn (.start source s) (Nat.lt_succ_of_le (Cursor.ahead_start_le source s))
  · have := rule.rank_le
    exact leaves_rules (s := c.ahead + 1) (by omega) c (Nat.lt_succ_self _)
  · refine hl.leaves (s := c.ahead + 1) (serve_of_settles fun rule c' hc' => ?_) (by omega) c
      (Nat.lt_succ_self _)
    exact hr rule c' (Nat.le_of_lt_succ hc')

end Spinel.Grammar
