import Spinel.Grammar.Cursor
import Spinel.Proofs.Computation
import Spinel.Proofs.Token.Extent

/-!
# Depth enough for what is ahead

What is ahead of a cursor is measured in tokens, those given back and those still to be read
(`Cursor.ahead`), and `Leaves m s x k` says that the part `x` of a rule, with less than `s` ahead,
either ends with less than `k` ahead, or fails at the text, or stops for lack of depth with less
than `m` ahead. With `m = 0` it never lacks depth. The bound `k` may depend on what `x` gives, since
a token that was looked for may not have been there.

The parts that rules are made of follow: a token that is taken makes the bound smaller by one
(`Leaves.next`), and one that is given back makes it larger by one (`Leaves.push`).
-/

namespace Spinel

/-! ## How many tokens there are -/

namespace Lexer

/-- Without tokens given back, the lexer gives the next token and has less text ahead, or the text
is at its end, or malformed. -/
theorem next_cases {l : Lexer} (hp : l.pushed = []) :
    (∃ t l', l.next = (.ok (some t), l') ∧ l'.pushed = [] ∧
        l'.stream.rest.length < l.stream.rest.length) ∨
      (∃ l', l.next = (.ok none, l') ∧ l'.pushed = [] ∧ l'.stream.rest = []) ∨
      ∃ e l', l.next = (.error e, l') := by
  cases hfirst : Lexeme.firstToken? l.stream.rest with
  | some first =>
    obtain ⟨t, rest⟩ := first
    obtain ⟨span, l', hnext, rfl, hpushed⟩ := next_of_firstToken? hp hfirst
    exact .inl ⟨_, l', hnext, hpushed, Lexeme.firstToken?_length_lt hfirst⟩
  | none =>
    by_cases hend : l.stream.rest.drop (Lexeme.blanks l.stream.rest false) = []
    · obtain ⟨l', hnext, hrest, hpushed⟩ := next_of_end hp hend
      exact .inr (.inl ⟨l', hnext, hpushed, hrest⟩)
    · exact .inr (.inr (next_of_malformed hp hfirst hend))

/-- A limit that is larger than the text does not show. -/
theorem tokensUpTo_eq {l : Lexer} {n m : Nat} (hp : l.pushed = [])
    (hn : l.stream.rest.length < n) (hm : l.stream.rest.length < m) :
    tokensUpTo n l = tokensUpTo m l := by
  induction n generalizing l m with
  | zero => exact absurd hn (Nat.not_lt_zero _)
  | succ n ih =>
    cases m with
    | zero => exact absurd hm (Nat.not_lt_zero _)
    | succ m =>
      unfold tokensUpTo
      rcases next_cases hp with ⟨t, l', hnext, hpushed, hlt⟩ | ⟨l', hnext, -, -⟩ | ⟨e, l', hnext⟩
      · rw [hnext]
        dsimp only
        rw [ih (m := m) hpushed (by omega) (by omega)]
      · rw [hnext]
      · rw [hnext]

theorem tokens_of_next {l l' : Lexer} {t : Token} (hp : l.pushed = []) (hp' : l'.pushed = [])
    (hnext : l.next = (.ok (some t), l')) (hlt : l'.stream.rest.length < l.stream.rest.length) :
    (tokens l.stream).1 = t :: (tokens l'.stream).1 := by
  obtain ⟨s, pushed⟩ := l
  obtain ⟨s', pushed'⟩ := l'
  obtain rfl : pushed = [] := hp
  obtain rfl : pushed' = [] := hp'
  unfold tokens
  rw [tokensUpTo, hnext]
  dsimp only at hlt ⊢
  rw [tokensUpTo_eq (m := s'.rest.length + 1) rfl hlt (Nat.lt_succ_self _)]

theorem tokens_of_end {s : Stream} (hs : s.rest = []) : (tokens s).1 = [] := by
  have hblanks : s.rest.drop (Lexeme.blanks s.rest false) = [] := by rw [hs]; rfl
  obtain ⟨l', hnext, -, -⟩ := next_of_end (l := ⟨s, []⟩) rfl hblanks
  unfold tokens
  rw [tokensUpTo, hnext]

theorem length_tokens_le (s : Stream) : (tokens s).1.length ≤ s.rest.length := by
  generalize hk : s.rest.length = k
  induction k using Nat.strongRecOn generalizing s with
  | ind k ih =>
    rcases next_cases (l := ⟨s, []⟩) rfl with
      ⟨t, l', hnext, hpushed, hlt⟩ | ⟨l', hnext, -, -⟩ | ⟨e, l', hnext⟩
    · rw [tokens_of_next (l := ⟨s, []⟩) rfl hpushed hnext hlt, List.length_cons]
      have := ih l'.stream.rest.length (by dsimp only at hlt; omega) l'.stream rfl
      dsimp only at hlt
      omega
    · unfold tokens
      rw [tokensUpTo, hnext]
      exact Nat.zero_le _
    · unfold tokens
      rw [tokensUpTo, hnext]
      exact Nat.zero_le _

end Lexer

namespace Grammar

variable {α β : Type}

/-- How many tokens are ahead, given back or still to be read. -/
def Cursor.ahead (c : Cursor) : Nat :=
  c.lexer.pushed.length + (Lexer.tokens c.lexer.stream).1.length

theorem Cursor.ahead_start_le (source : SourceId) (s : Stream) :
    (Cursor.start source s).ahead ≤ s.rest.length := by
  unfold ahead
  rw [start_lexer, List.length_nil, Nat.zero_add]
  exact Lexer.length_tokens_le s

/-- An end with less than `k` ahead, or an error in the text, or a stop for lack of depth with less
than `m` ahead. -/
def Settles (m : Nat) (k : α → Nat) : EStateM.Result Stop Cursor α → Prop
  | .ok a c => c.ahead < k a
  | .error (.syntaxError _) _ => True
  | .error .exhausted c => c.ahead < m

/-- With less than `s` ahead, the part leaves less than `k` ahead, and lacks depth only where less
than `m` is ahead. -/
def Leaves (m s : Nat) (x : Parse α) (k : α → Nat) : Prop :=
  ∀ c : Cursor, c.ahead < s → Settles m k (x c)

/-! ## Sequences of steps -/

section Steps

variable {m s : Nat} {x : Parse α} {f : α → Parse β} {k : β → Nat} {k' : α → Nat}

theorem Leaves.pure {a : β} (h : s ≤ k a) : Leaves m s (pure a) k :=
  fun _ hc => Nat.lt_of_lt_of_le hc h

theorem Leaves.zero : Leaves m 0 x k' := fun _ hc => absurd hc (Nat.not_lt_zero _)

theorem Leaves.exhausted (h : s ≤ m) : Leaves m s Grammar.exhausted k :=
  fun _ hc => Nat.lt_of_lt_of_le hc h

theorem Leaves.bind {l : α → Nat} (hx : Leaves m s x l)
    (hf : ∀ a, Leaves m (l a) (f a) k) : Leaves m s (x >>= f) k := by
  intro c hc
  have hx := hx c hc
  rw [bind_apply]
  cases hxc : x c with
  | ok a c' =>
    rw [hxc] at hx
    exact hf a c' hx
  | error e c' =>
    rw [hxc] at hx
    cases e with
    | syntaxError e => trivial
    | exhausted => exact hx

theorem Leaves.mono {s' : Nat} {l l' : α → Nat} (h : Leaves m s x l) (hs : s' ≤ s)
    (hl : ∀ a, l a ≤ l' a) : Leaves m s' x l' := by
  intro c hc
  have h := h c (Nat.lt_of_lt_of_le hc hs)
  cases hxc : x c with
  | ok a c' =>
    rw [hxc] at h
    exact Nat.lt_of_lt_of_le h (hl a)
  | error e c' =>
    rw [hxc] at h
    cases e with
    | syntaxError e => trivial
    | exhausted => exact h

theorem Leaves.upTo {l l' : Nat} (h : Leaves m s x fun _ => l) (hl : l ≤ l') :
    Leaves m s x fun _ => l' :=
  h.mono (Nat.le_refl s) fun _ => hl

theorem Leaves.get {f : Cursor → Parse β} (hf : ∀ c, Leaves m s (f c) k) :
    Leaves m s (MonadState.get >>= f) k :=
  fun c hc => hf c c hc

/-! ## Errors -/

theorem leaves_failAt {position : Position} {fault : SyntaxFault} :
    Leaves m s (failAt position fault) k :=
  fun _ _ => trivial

theorem leaves_expected {token : Option Token} {what : String} :
    Leaves m s (expected token what) k :=
  fun _ _ => trivial

theorem leaves_unexpected {token : Option Token} : Leaves m s (unexpected token) k := by
  cases token <;> exact fun _ _ => trivial

/-! ## Tokens -/

/-- A token that is taken is ahead no more, and without one nothing is ahead. -/
theorem next_ahead (c : Cursor) :
    (∃ t c', next c = .ok (some t) c' ∧ c'.ahead < c.ahead) ∨
      (∃ c', next c = .ok none c' ∧ c'.ahead = 0) ∨
      ∃ e c', next c = .error (.syntaxError e) c' := by
  unfold next Cursor.ahead
  cases hp : c.lexer.pushed with
  | cons t ts =>
    have hnext : c.lexer.next = (.ok (some t), { c.lexer with pushed := ts }) := by
      unfold Lexer.next
      rw [hp]
    rw [hnext]
    refine .inl ⟨t, _, rfl, ?_⟩
    simp only [Cursor.took_lexer, List.length_cons]
    omega
  | nil =>
    rcases Lexer.next_cases hp with ⟨t, l, hnext, hpushed, hlt⟩ | ⟨l, hnext, hpushed, hrest⟩ |
      ⟨e, l, hnext⟩
    · rw [hnext]
      refine .inl ⟨_, _, rfl, ?_⟩
      rw [Lexer.tokens_of_next hp hpushed hnext hlt]
      simp only [Cursor.took_lexer, hpushed, List.length_nil, List.length_cons]
      omega
    · rw [hnext]
      refine .inr (.inl ⟨_, rfl, ?_⟩)
      simp only [Cursor.tookNone_lexer, hpushed, Lexer.tokens_of_end hrest, List.length_nil]
    · rw [hnext]
      exact .inr (.inr ⟨e, _, rfl⟩)

theorem Leaves.next {f : Option Token → Parse β}
    (hsome : ∀ t s', s = s' + 1 → Leaves m s' (f (some t)) k)
    (hnone : 0 < s → Leaves m 1 (f none) k) : Leaves m s (Grammar.next >>= f) k := by
  intro c hc
  rcases next_ahead c with ⟨t, c', hnext, hlt⟩ | ⟨c', hnext, hzero⟩ | ⟨e, c', hnext⟩
  · rw [bind_of_ok hnext]
    obtain ⟨s', rfl⟩ : ∃ s', s = s' + 1 := ⟨s - 1, by omega⟩
    exact hsome t s' rfl c' (by omega)
  · rw [bind_of_ok hnext]
    exact hnone (by omega) c' (by omega)
  · rw [bind_of_error hnext]
    trivial

theorem Leaves.nextRequired {f : Token → Parse β}
    (h : ∀ t s', s = s' + 1 → Leaves m s' (f t) k) :
    Leaves m s (Grammar.nextRequired >>= f) k := by
  unfold Grammar.nextRequired
  rw [bind_assoc]
  refine .next (fun t s' hs => ?_) ?_
  · rw [pure_bind]
    exact h t s' hs
  · exact fun _ _ _ => trivial

theorem Leaves.push {t : Token} {f : Unit → Parse β} (h : Leaves m (s + 1) (f ()) k) :
    Leaves m s (Grammar.push t >>= f) k := by
  intro c hc
  refine h _ ?_
  unfold Cursor.ahead at hc ⊢
  simp only [Cursor.gaveBack_lexer, Lexer.push, List.length_cons]
  omega

theorem Leaves.peek {f : Option Token → Parse β} (hsome : ∀ t, Leaves m s (f (some t)) k)
    (hnone : 0 < s → Leaves m 1 (f none) k) : Leaves m s (Grammar.peek >>= f) k := by
  unfold Grammar.peek
  rw [bind_assoc]
  refine .next (fun t s' hs => ?_) ?_
  · simp only [bind_assoc, pure_bind]
    exact .push (hs ▸ hsome t)
  · intro hs
    rw [pure_bind]
    exact hnone hs

theorem Leaves.accept {fits : Token → Bool} {y z : Parse β}
    (hy : ∀ s', s = s' + 1 → Leaves m s' y k) (hz : Leaves m s z k) :
    Leaves m s (do if ← Grammar.accept fits then y else z) k := by
  unfold Grammar.accept
  rw [bind_assoc]
  refine .next (fun t s' hs => ?_) ?_
  · dsimp only
    split
    · rw [pure_bind]
      exact hy s' hs
    · rw [bind_assoc]
      refine .push ?_
      rw [pure_bind, ← hs]
      exact hz
  · intro hs
    rw [pure_bind]
    exact hz.mono hs fun _ => Nat.le_refl _

theorem leaves_accept {fits : Token → Bool} : Leaves m s (accept fits) fun _ => s := by
  rw [← bind_pure (accept fits)]
  unfold accept
  rw [bind_assoc]
  refine .next (fun t s' hs => ?_) fun hs => .pure hs
  dsimp only
  split
  · exact .pure (by omega)
  · rw [bind_assoc]
    exact .push (.pure (by omega))

theorem Leaves.expect {fits : Token → Bool} {what : String} {f : Token → Parse β}
    (h : ∀ t s', s = s' + 1 → Leaves m s' (f t) k) :
    Leaves m s (Grammar.expect fits what >>= f) k := by
  unfold Grammar.expect
  rw [bind_assoc]
  refine .next (fun t s' hs => ?_) ?_
  · dsimp only
    split
    · rw [pure_bind]
      exact h t s' hs
    · exact fun _ _ => trivial
  · exact fun _ _ _ => trivial

theorem leaves_skipWhile {fits : Token → Bool} {n : Nat} (hn : s ≤ n + m) :
    Leaves m s (skipWhile fits n) fun _ => s := by
  induction n generalizing s with
  | zero => exact .exhausted (by omega)
  | succ n ih =>
    refine .accept (fun s' hs => ?_) (.pure (Nat.le_refl s))
    exact (ih (s := s') (by omega)).upTo (by omega)

theorem Leaves.skipWhile {fits : Token → Bool} {n : Nat} {f : Unit → Parse β} (hn : s ≤ n + m)
    (h : Leaves m s (f ()) k) : Leaves m s (Grammar.skipWhile fits n >>= f) k :=
  (leaves_skipWhile hn).bind fun _ => h

/-! ## Spans and scopes -/

theorem Leaves.spanFrom {start : Span} {f : Span → Parse β} (h : ∀ span, Leaves m s (f span) k) :
    Leaves m s (Grammar.spanFrom start >>= f) k :=
  fun c hc => h _ c hc

theorem Leaves.siteAt {span : Span} {f : Site → Parse β} (h : ∀ site, Leaves m s (f site) k) :
    Leaves m s (Grammar.siteAt span >>= f) k :=
  fun c hc => h _ c hc

theorem leaves_withNoDo {flag : Bool} {l : α → Nat} (h : Leaves m s x l) :
    Leaves m s (withNoDo flag x) l := by
  have hset : ∀ (flag : Bool) {s : Nat},
      Leaves m s (modify fun c => { c with noDo := flag } : Parse Unit) fun _ => s :=
    fun flag _ _ hc => hc
  unfold withNoDo
  exact .get fun c => (hset flag).bind fun _ => h.bind fun a =>
    (hset c.noDo).bind fun _ => .pure (Nat.le_refl _)

end Steps

end Grammar

end Spinel
