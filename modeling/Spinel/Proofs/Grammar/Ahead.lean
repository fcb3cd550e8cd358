import Spinel.Grammar.Cursor
import Spinel.Proofs.Computation
import Spinel.Proofs.Token.Reading

/-!
# Rules run on the tokens ahead

`Cursor.Ahead c ts` says that the tokens which a rule will see from `c` on are `ts`, given back or
not yet read; their places are left open. `Parses x ts us Q` says that the part `x` of a rule,
started before `ts`, ends before `us` with a result in `Q`. `Reaches` is the same for a part that
is not at its end yet but goes on as another: loops are proved through it.

One rule of reasoning for each small step of the grammar follows, all of them about what stands at
the front of a sequence of steps.
-/

namespace Spinel.Grammar

variable {α β γ : Type}

/-- The tokens ahead of the cursor, up to their places. -/
def Cursor.Ahead (c : Cursor) (ts : List Token) : Prop :=
  ∃ us, ts.map (·.placed default) = c.lexer.pushed.map (·.placed default) ++ us ∧
    Reads c.lexer.stream.rest us

/-- Started before the tokens `ts`, `x` goes on as `y` before `us`, with something in `Q`. -/
def Reaches (x : Parse α) (ts us : List Token) (y : β → Parse α) (Q : β → Prop) : Prop :=
  ∀ c : Cursor, c.Ahead ts → ∃ b c', Q b ∧ c'.Ahead us ∧ x c = y b c'

/-- Started before the tokens `ts`, `x` ends before `us` with a result in `Q`. -/
def Parses (x : Parse α) (ts us : List Token) (Q : α → Prop) : Prop :=
  Reaches x ts us pure Q

/-! ## The tokens ahead -/

namespace Cursor.Ahead

variable {c : Cursor} {t : Token} {ts : List Token}

theorem start {source : SourceId} {s : Stream} (h : Reads s.rest ts) :
    (Cursor.start source s).Ahead ts := by
  refine ⟨ts, ?_, h⟩
  have : ∀ t ∈ ts, t.placed default = t := fun t ht => by
    rw [← h.span_eq_default t ht, Token.placed_self]
  simp only [Cursor.start_lexer, List.map_nil, List.nil_append]
  exact (List.map_congr_left this).trans (List.map_id _)

theorem placed {span : Span} : c.Ahead (t.placed span :: ts) ↔ c.Ahead (t :: ts) := Iff.rfl

theorem next (h : c.Ahead (t :: ts)) :
    ∃ span c', Grammar.next c = .ok (some (t.placed span)) c' ∧ c'.Ahead ts := by
  obtain ⟨us, heq, hr⟩ := h
  cases hp : c.lexer.pushed with
  | nil =>
    rw [hp, List.map_nil, List.nil_append, List.map_cons] at heq
    subst heq
    cases hr with
    | token hf hr =>
      obtain ⟨span, l, hn, hrest, hpush⟩ := Lexer.next_of_firstToken? hp hf
      rw [Token.placed_placed] at hn
      refine ⟨span, _, by simp only [Grammar.next, hn]; rfl, ts.map (·.placed default), ?_, ?_⟩
      · simp [hpush]
      · simpa only [Cursor.took_lexer, hrest] using hr
  | cons p ps =>
    rw [hp, List.map_cons, List.map_cons, List.cons_append, List.cons.injEq] at heq
    have ht : t.placed p.span = p := by
      have := congrArg (·.placed p.span) heq.1
      simpa using this
    refine ⟨p.span, _, by simp only [Grammar.next, Lexer.next, hp, ht]; rfl, us, ?_, ?_⟩
    · exact heq.2
    · exact hr

theorem next_none (h : c.Ahead []) : ∃ c', Grammar.next c = .ok none c' ∧ c'.Ahead [] := by
  obtain ⟨us, heq, hr⟩ := h
  obtain ⟨hp, rfl⟩ := List.append_eq_nil_iff.1 heq.symm
  have hp : c.lexer.pushed = [] := List.map_eq_nil_iff.1 hp
  cases hr with
  | done hd =>
    obtain ⟨l, hn, hrest, hpush⟩ := Lexer.next_of_end hp hd
    refine ⟨_, by simp only [Grammar.next, hn]; rfl, [], ?_, ?_⟩
    · simp [hpush]
    · rw [Cursor.tookNone_lexer, hrest]
      exact .nil

theorem push (h : c.Ahead ts) (t : Token) :
    ∃ c', Grammar.push t c = .ok () c' ∧ c'.Ahead (t :: ts) := by
  obtain ⟨us, heq, hr⟩ := h
  refine ⟨_, rfl, us, ?_, hr⟩
  simp only [Cursor.gaveBack_lexer, Lexer.push, List.map_cons, heq, List.cons_append]

/-- Nothing but the lexer decides which tokens are ahead. -/
theorem of_lexer {d : Cursor} (h : c.Ahead ts) (hl : d.lexer = c.lexer) : d.Ahead ts := by
  unfold Ahead
  rw [hl]
  exact h

end Cursor.Ahead

/-! ## Sequences of steps -/

section Steps

variable {x : Parse α} {f : α → Parse γ} {t : Token} {ts ms us : List Token} {y : β → Parse γ}
  {P : α → Prop} {Q : β → Prop}

theorem Reaches.refl {b : β} (h : Q b) : Reaches (y b) ts ts y Q :=
  fun c hc => ⟨b, c, h, hc, rfl⟩

theorem Reaches.mono {z : β → Parse α} {R : β → Prop} (h : Reaches x ts us z Q)
    (hR : ∀ b, Q b → R b) : Reaches x ts us z R := by
  intro c hc
  obtain ⟨b, c', hb, hc', he⟩ := h c hc
  exact ⟨b, c', hR b hb, hc', he⟩

theorem Reaches.bind (hx : Parses x ts ms P) (hf : ∀ a, P a → Reaches (f a) ms us y Q) :
    Reaches (x >>= f) ts us y Q := by
  intro c hc
  obtain ⟨a, c₁, ha, hc₁, hx⟩ := hx c hc
  obtain ⟨b, c₂, hb, hc₂, hf⟩ := hf a ha c₁ hc₁
  exact ⟨b, c₂, hb, hc₂, (bind_of_ok hx f).trans hf⟩

theorem Reaches.trans {δ : Type} {z : β → Parse α} {y : δ → Parse α} {R : δ → Prop}
    (hx : Reaches x ts ms z Q) (hz : ∀ b, Q b → Reaches (z b) ms us y R) : Reaches x ts us y R := by
  intro c hc
  obtain ⟨b, c₁, hb, hc₁, hx⟩ := hx c hc
  obtain ⟨d, c₂, hd, hc₂, hz⟩ := hz b hb c₁ hc₁
  exact ⟨d, c₂, hd, hc₂, hx.trans hz⟩

/-! ## Tokens -/

theorem Reaches.next {f : Option Token → Parse γ}
    (h : ∀ span, Reaches (f (some (t.placed span))) ts us y Q) :
    Reaches (Grammar.next >>= f) (t :: ts) us y Q := by
  intro c hc
  obtain ⟨span, c₁, hn, hc₁⟩ := hc.next
  obtain ⟨b, c₂, hb, hc₂, he⟩ := h span c₁ hc₁
  exact ⟨b, c₂, hb, hc₂, (bind_of_ok hn f).trans he⟩

theorem Reaches.next_none {f : Option Token → Parse γ} (h : Reaches (f none) [] us y Q) :
    Reaches (Grammar.next >>= f) [] us y Q := by
  intro c hc
  obtain ⟨c₁, hn, hc₁⟩ := hc.next_none
  obtain ⟨b, c₂, hb, hc₂, he⟩ := h c₁ hc₁
  exact ⟨b, c₂, hb, hc₂, (bind_of_ok hn f).trans he⟩

theorem Reaches.push {f : Unit → Parse γ} {span : Span} (h : Reaches (f ()) (t :: ts) us y Q) :
    Reaches (Grammar.push (t.placed span) >>= f) ts us y Q := by
  intro c hc
  obtain ⟨c₁, hp, hc₁⟩ := hc.push (t.placed span)
  obtain ⟨b, c₂, hb, hc₂, he⟩ := h c₁ (Cursor.Ahead.placed.1 hc₁)
  exact ⟨b, c₂, hb, hc₂, (bind_of_ok hp f).trans he⟩

theorem Reaches.nextRequired {f : Token → Parse γ}
    (h : ∀ span, Reaches (f (t.placed span)) ts us y Q) :
    Reaches (Grammar.nextRequired >>= f) (t :: ts) us y Q := by
  unfold Grammar.nextRequired
  rw [bind_assoc]
  refine .next fun span => ?_
  rw [pure_bind]
  exact h span

theorem Reaches.peek {f : Option Token → Parse γ}
    (h : ∀ span, Reaches (f (some (t.placed span))) (t :: ts) us y Q) :
    Reaches (Grammar.peek >>= f) (t :: ts) us y Q := by
  unfold Grammar.peek
  rw [bind_assoc]
  refine .next fun span => ?_
  simp only [bind_assoc, pure_bind]
  exact .push (h span)

theorem Reaches.peek_none {f : Option Token → Parse γ} (h : Reaches (f none) [] us y Q) :
    Reaches (Grammar.peek >>= f) [] us y Q := by
  unfold Grammar.peek
  rw [bind_assoc]
  refine .next_none ?_
  rw [pure_bind]
  exact h

theorem Reaches.accept_true {f : Bool → Parse γ} {fits : Token → Bool}
    (ht : ∀ span, fits (t.placed span) = true) (h : Reaches (f true) ts us y Q) :
    Reaches (accept fits >>= f) (t :: ts) us y Q := by
  unfold accept
  rw [bind_assoc]
  refine .next fun span => ?_
  simp only [ht, if_true, pure_bind]
  exact h

theorem Reaches.accept_false {f : Bool → Parse γ} {fits : Token → Bool}
    (ht : ∀ t, ts.head? = some t → ∀ span, fits (t.placed span) = false)
    (h : Reaches (f false) ts us y Q) : Reaches (accept fits >>= f) ts us y Q := by
  unfold accept
  rw [bind_assoc]
  cases ts with
  | nil =>
    refine .next_none ?_
    rw [pure_bind]
    exact h
  | cons t ts =>
    refine .next fun span => ?_
    simp only [ht t rfl span, Bool.false_eq_true, if_false, bind_assoc, pure_bind]
    exact .push h

theorem Reaches.expect {f : Token → Parse γ} {fits : Token → Bool} {what : String}
    (ht : ∀ span, fits (t.placed span) = true) (h : ∀ span, Reaches (f (t.placed span)) ts us y Q) :
    Reaches (Grammar.expect fits what >>= f) (t :: ts) us y Q := by
  unfold Grammar.expect
  rw [bind_assoc]
  refine .next fun span => ?_
  simp only [ht, if_true, pure_bind]
  exact h span

theorem Reaches.skipWhile {f : Unit → Parse γ} {fits : Token → Bool} {n : Nat} (hn : 0 < n)
    (ht : ∀ t, ts.head? = some t → ∀ span, fits (t.placed span) = false)
    (h : Reaches (f ()) ts us y Q) : Reaches (Grammar.skipWhile fits n >>= f) ts us y Q := by
  cases n with
  | zero => cases hn
  | succ n =>
    unfold Grammar.skipWhile
    rw [bind_assoc]
    refine .accept_false ht ?_
    simp only [Bool.false_eq_true, if_false, pure_bind]
    exact h

/-! ## Spans and scopes -/

theorem Reaches.spanFrom {f : Span → Parse γ} {start : Span}
    (h : ∀ span, Reaches (f span) ts us y Q) :
    Reaches (Grammar.spanFrom start >>= f) ts us y Q := by
  intro c hc
  obtain ⟨b, c₁, hb, hc₁, he⟩ := h (start.join c.last) c hc
  exact ⟨b, c₁, hb, hc₁, he⟩

theorem Parses.withNoDo {flag : Bool} (h : Parses x ts us P) :
    Parses (Grammar.withNoDo flag x) ts us P := by
  intro c hc
  obtain ⟨a, c₁, ha, hc₁, he⟩ := h { c with noDo := flag } (hc.of_lexer rfl)
  refine ⟨a, { c₁ with noDo := c.noDo }, ha, hc₁.of_lexer rfl, ?_⟩
  have hread : Grammar.withNoDo flag x c = (x >>= fun a => do
      modify fun d => { d with noDo := c.noDo }
      return a) { c with noDo := flag } := rfl
  rw [hread, bind_of_ok he]
  rfl

end Steps

end Spinel.Grammar
