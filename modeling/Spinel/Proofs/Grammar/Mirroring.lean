import Spinel.Proofs.Computation
import Spinel.Proofs.Grammar.Embedding

/-!
# Parts of rules that do the same in a larger text

`Repeats e x y` says of two parts of rules that `y` does in the larger text what `x` does in the
smaller one: whenever `x` succeeds, `y` gives the same, moved, unless it lacks depth. The depths of
`x` and `y` have nothing to do with one another.

Most parts give back a token that does not concern them, and a line feed at the end of the smaller
text is such a token. The parts that take it are those that skip line ends. What comes behind them
needs a token (`NeedsToken`), so that `x` fails where the smaller text has none and nothing is asked
of `y`.
-/

namespace Spinel.Grammar

variable {α β : Type}

/-! ## Ends of a part -/

/-- The part ends with a result in `Q`, unless it lacks depth. -/
def Yields (y : Parse α) (d : Cursor) (Q : α → Cursor → Prop) : Prop :=
  (∃ d', y d = .error .exhausted d') ∨ ∃ a d', y d = .ok a d' ∧ Q a d'

namespace Yields

variable {y : Parse α} {g : α → Parse β} {d d' : Cursor} {P P' : α → Cursor → Prop}
  {Q : β → Cursor → Prop}

theorem of_ok {a : α} (h : y d = .ok a d') (hP : P a d') : Yields y d P := .inr ⟨a, d', h, hP⟩

theorem mono (h : Yields y d P) (hP : ∀ a d', P a d' → P' a d') : Yields y d P' :=
  h.imp_right fun ⟨a, d', hy, ha⟩ => ⟨a, d', hy, hP a d' ha⟩

theorem bind (h : Yields y d P) (hg : ∀ a d', P a d' → Yields (g a) d' Q) :
    Yields (y >>= g) d Q := by
  rcases h with ⟨d', hy⟩ | ⟨a, d', hy, hP⟩
  · exact .inl ⟨d', bind_of_error hy g⟩
  · unfold Yields
    rw [bind_of_ok hy]
    exact hg a d' hP

/-- A part whose first step is known. -/
theorem step {a : α} (hy : y d = .ok a d') (hg : Yields (g a) d' Q) : Yields (y >>= g) d Q := by
  unfold Yields
  rw [bind_of_ok hy]
  exact hg

end Yields

/-! ## The record -/

/-- `x` goes as `y` goes from the same cursor with another record. -/
def UpToRecord (x y : Parse α) : Prop := ∀ c, ∃ taken passed, x c = y { c with taken, passed }

namespace UpToRecord

variable {x y : Parse α} {d : Cursor} {P : α → Cursor → Prop}

theorem refl (x : Parse α) : UpToRecord x x := fun c => ⟨c.taken, c.passed, rfl⟩

theorem yields (h : UpToRecord x y) (hy : ∀ taken passed, Yields y { d with taken, passed } P) :
    Yields x d P := by
  obtain ⟨taken, passed, hx⟩ := h d
  unfold Yields
  rw [hx]
  exact hy taken passed

end UpToRecord

/-! ## Steps in front of a part -/

theorem push_apply (t : Token) (c : Cursor) : push t c = .ok () (c.gaveBack t) := rfl

theorem peek_bind (f : Option Token → Parse β) :
    peek >>= f = next >>= fun token => match token with
      | none => f none
      | some t => push t >>= fun _ => f (some t) := by
  unfold peek
  rw [bind_assoc]
  congr 1
  funext token
  cases token <;> rfl

theorem push_peek (t : Token) (f : Option Token → Parse β) :
    UpToRecord (push t >>= fun _ => peek >>= f) (push t >>= fun _ => f (some t)) :=
  fun c => ⟨t :: c.taken.erase t, _, rfl⟩

theorem accept_bind (fits : Token → Bool) (f : Bool → Parse β) :
    accept fits >>= f = next >>= fun token => match token with
      | none => f false
      | some t => if fits t then f true else push t >>= fun _ => f false := by
  unfold accept
  rw [bind_assoc]
  congr 1
  funext token
  cases token with
  | none => rfl
  | some t => dsimp only; split <;> rfl

theorem expect_bind (fits : Token → Bool) (what : String) (f : Token → Parse β) :
    expect fits what >>= f = next >>= fun token => match token with
      | none => expected none what >>= f
      | some t => if fits t then f t else expected (some t) what >>= f := by
  unfold expect
  rw [bind_assoc]
  congr 1
  funext token
  cases token with
  | none => rfl
  | some t => dsimp only; split <;> rfl

theorem skipWhile_succ_bind (fits : Token → Bool) (n : Nat) (f : Unit → Parse β) :
    skipWhile fits (n + 1) >>= f = next >>= fun token => match token with
      | none => f ()
      | some t => if fits t then skipWhile fits n >>= f else push t >>= fun _ => f () := by
  rw [skipWhile, bind_assoc, accept_bind]
  rfl

theorem push_next_apply (t : Token) (f : Option Token → Parse β) (c : Cursor) :
    (push t >>= fun _ => next >>= f) c = f (some t) ((c.gaveBack t).took t c.lexer) := rfl

theorem push_next_push {t : Token} {f : Option Token → Parse β} {g : Unit → Parse β}
    (h : f (some t) = push t >>= g) :
    UpToRecord (push t >>= fun _ => next >>= f) (push t >>= g) := by
  intro c
  rw [push_next_apply, h]
  exact ⟨t :: c.taken.erase t, _, rfl⟩

theorem push_accept {t : Token} {fits : Token → Bool} (h : fits t = false) (f : Bool → Parse β) :
    UpToRecord (push t >>= fun _ => accept fits >>= f) (push t >>= fun _ => f false) := by
  rw [accept_bind]
  refine push_next_push ?_
  dsimp only
  rw [h]
  rfl

theorem push_skipWhile {t : Token} {fits : Token → Bool} (h : fits t = false) (n : Nat)
    (f : Unit → Parse β) :
    UpToRecord (push t >>= fun _ => skipWhile fits (n + 1) >>= f) (push t >>= f) := by
  rw [skipWhile_succ_bind]
  refine push_next_push ?_
  dsimp only
  rw [h]
  rfl

theorem endOfCommand_bind (f : Unit → Parse β) :
    endOfCommand >>= f = next >>= fun token => match token with
      | none => f ()
      | some t =>
        if t.isTerminator then f ()
        else if isCloser statementClosers t then push t >>= f
        else unexpected (some t) >>= f := by
  unfold endOfCommand
  rw [bind_assoc]
  congr 1
  funext token
  cases token with
  | none => rfl
  | some t =>
    dsimp only
    split
    · rfl
    · split <;> rfl

/-! ## Parts that fail -/

/-- The part never succeeds. -/
def Fails (x : Parse α) : Prop := ∀ c a c', x c ≠ .ok a c'

/-- The part fails where no token is ahead. -/
def NeedsToken (x : Parse α) : Prop := ∀ c : Cursor, AtEnd c.lexer → ∀ a c', x c ≠ .ok a c'

namespace Fails

variable {x y : Parse α} {f : α → Parse β}

theorem bind (h : Fails x) : Fails (x >>= f) := by
  intro c b c' hb
  obtain ⟨a, c₁, ha, -⟩ := bind_eq_ok hb
  exact h c a c₁ ha

/-- A part whose end never succeeds. -/
theorem of_bind (h : ∀ a, Fails (f a)) : Fails (x >>= f) := by
  intro c b c' hb
  obtain ⟨a, c₁, -, hb⟩ := bind_eq_ok hb
  exact h a c₁ b c' hb

theorem expected {token : Option Token} {what : String} :
    Fails (Grammar.expected token what : Parse α) :=
  fun _ _ _ h => by cases h

theorem unexpected {token : Option Token} : Fails (Grammar.unexpected token : Parse α) := by
  intro c a c' h
  unfold Grammar.unexpected at h
  split at h <;> cases h

theorem failAt {position : Position} {fault : SyntaxFault} :
    Fails (Grammar.failAt position fault : Parse α) :=
  fun _ _ _ h => by cases h

theorem exhausted : Fails (Grammar.exhausted : Parse α) := fun _ _ _ h => by cases h

theorem needsToken (h : Fails x) : NeedsToken x := fun c _ => h c

theorem upToRecord (h : Fails y) (hx : UpToRecord x y) : Fails x := by
  intro c a c' ha
  obtain ⟨taken, passed, hc⟩ := hx c
  exact h _ a c' (hc.symm.trans ha)

end Fails

namespace NeedsToken

variable {x : Parse α} {f : α → Parse β}

theorem bind (h : NeedsToken x) : NeedsToken (x >>= f) := by
  intro c hc b c' hb
  obtain ⟨a, c₁, ha, -⟩ := bind_eq_ok hb
  exact h c hc a c₁ ha

theorem next {f : Option Token → Parse β} (h : NeedsToken (f none)) :
    NeedsToken (Grammar.next >>= f) := by
  intro c hc b c' hb
  obtain ⟨l, hnext, hend, -⟩ := hc.next
  rw [bind_of_ok hnext] at hb
  exact h _ hend b c' hb

theorem nextRequired : NeedsToken Grammar.nextRequired := .next Fails.unexpected.needsToken

theorem expect {fits : Token → Bool} {what : String} : NeedsToken (Grammar.expect fits what) :=
  .next Fails.expected.needsToken

theorem accept {fits : Token → Bool} {f : Bool → Parse β} (h : NeedsToken (f false)) :
    NeedsToken (Grammar.accept fits >>= f) := by
  rw [accept_bind]
  exact .next h

theorem skipWhile {fits : Token → Bool} {f : Unit → Parse β} (h : NeedsToken (f ())) (n : Nat) :
    NeedsToken (Grammar.skipWhile fits n >>= f) := by
  cases n with
  | zero => exact Fails.exhausted.bind.needsToken
  | succ n =>
    rw [skipWhile_succ_bind]
    exact .next h

theorem skipTerminators {f : Unit → Parse β} {n : Nat} (h : NeedsToken (f ())) :
    NeedsToken (Grammar.skipTerminators n >>= f) :=
  .skipWhile h n

end NeedsToken

/-! ## Parts that do the same in both texts -/

/-- From cursors that are as `P` says, whenever `x` succeeds, `y` gives a result that is to the one
of `x` as `Q` says. -/
def Mirrors (P : Cursor → Cursor → Prop) (x : Parse α) (y : Parse β)
    (Q : α → Cursor → β → Cursor → Prop) : Prop :=
  ∀ c d, P c d → ∀ a c', x c = .ok a c' → Yields y d (Q a c')

/-- The same result in both texts, and the same ahead. -/
def Embedding.Same [Moves α] (e : Embedding) (flag : Bool) (a : α) (c : Cursor) (b : α)
    (d : Cursor) : Prop :=
  b = e.shift.move a ∧ e.Beside flag c d

/-- `y` does in the larger text what `x` does in the smaller one. -/
def Repeats [Moves α] (e : Embedding) (flag : Bool) (x y : Parse α) : Prop :=
  Mirrors (e.Beside flag) x y (e.Same flag)

namespace Mirrors

variable {γ δ : Type} {e : Embedding} {flag : Bool} {P : Cursor → Cursor → Prop} {x : Parse γ}
  {y : Parse δ} {Q : γ → Cursor → δ → Cursor → Prop}

theorem pure [Moves α] {a b : α} (h : b = e.shift.move a) :
    Mirrors (e.Beside flag) (Pure.pure a) (Pure.pure b) (e.Same flag) := by
  intro c d hP a' c' hx
  cases hx
  exact .of_ok rfl ⟨h, hP⟩

theorem took (h : Mirrors (e.Beside flag) x y Q) : Mirrors (e.Took flag) x y Q :=
  fun c d hP => h c d hP.beside

/-- Neither text asks for the record. -/
theorem upToRecord {x' : Parse γ} {y' : Parse δ} (hx : UpToRecord x x') (hy : UpToRecord y y')
    (h : Mirrors (e.Took flag) x' y' Q) : Mirrors (e.Took flag) x y Q := by
  intro c d hP a c' ha
  obtain ⟨taken, passed, hc⟩ := hx c
  refine hy.yields fun taken' passed' => ?_
  exact h { c with taken, passed } { d with taken := taken', passed := passed' }
    ⟨hP.source, hP.noDo, hP.last, hP.beforeLast, hP.inside⟩ a c' (hc.symm.trans ha)

theorem bind [Moves α] {x y : Parse α} {f : α → Parse γ} {g : α → Parse δ}
    (hx : Mirrors P x y (e.Same flag))
    (hf : ∀ a, Mirrors (e.Beside flag) (f a) (g (e.shift.move a)) Q) :
    Mirrors P (x >>= f) (y >>= g) Q := by
  intro c d hP b c' hb
  obtain ⟨a, c₁, ha, hb⟩ := bind_eq_ok hb
  refine (hx c d hP a c₁ ha).bind fun a' d₁ ⟨hmove, hbeside⟩ => ?_
  rw [hmove]
  exact hf a c₁ d₁ hbeside b c' hb

theorem map {x : Parse α} {y : Parse β} {R : α → Cursor → β → Cursor → Prop} {f : α → γ} {g : β → δ}
    (hx : Mirrors P x y R) (h : ∀ a c b d, R a c b d → Q (f a) c (g b) d) :
    Mirrors P (x >>= fun a => Pure.pure (f a)) (y >>= fun b => Pure.pure (g b)) Q := by
  intro c d hP a' c' ha'
  obtain ⟨a, c₁, ha, hpure⟩ := bind_eq_ok ha'
  cases hpure
  exact (hx c d hP a c' ha).bind fun b d' hR => .of_ok rfl (h a c' b d' hR)

theorem ite {p q : Bool} {x' : Parse γ} {y' : Parse δ} (hpq : q = p) (h : Mirrors P x y Q)
    (h' : Mirrors P x' y' Q) : Mirrors P (if p then x else x') (if q then y else y') Q := by
  subst hpq
  cases q with
  | true => exact h
  | false => exact h'

theorem otherwise {q : Bool} {y' : Parse δ} (hq : q = false) (h : Mirrors P x y' Q) :
    Mirrors P x (if q then y else y') Q := by
  subst hq
  exact h

theorem fails (h : Fails x) : Mirrors P x y Q := fun c _ _ a c' hx => absurd hx (h c a c')

theorem exhausted_right : Mirrors P x exhausted Q := fun _ d _ _ _ _ => .inl ⟨d, rfl⟩

/-- Behind the line feed nothing is asked of a part that needs a token. -/
theorem past {span : Span} (h : NeedsToken x) : Mirrors (e.Past flag span) x y Q :=
  fun c _ hP a c' hx => absurd hx (h c hP.atEnd a c')

/-! ## Tokens -/

/-- The next token is the same in both texts, or both are at their ends, or the smaller one is and
the line feed takes the place of a token. -/
theorem nextOrEnd {f : Option Token → Parse γ} {g : Option Token → Parse δ}
    (hsome : ∀ t, Mirrors (e.Took flag) (f (some t)) (g (some (e.shift.move t))) Q)
    (hnone : e.tail = none → Mirrors (e.Beside flag) (f none) (g none) Q)
    (hfeed : ∀ span spaced,
      Mirrors (e.Past flag span) (f none) (g (some (.feed span spaced))) Q) :
    Mirrors (e.Beside flag) (Grammar.next >>= f) (Grammar.next >>= g) Q := by
  intro c d hP b c' hb
  obtain ⟨token, c₁, hnext, hb⟩ := bind_eq_ok hb
  have hanswers := hP.next hnext
  generalize hd : Grammar.next d = result at hanswers
  cases hanswers with
  | token h => exact .step hd (hsome _ c₁ _ h b c' hb)
  | none h _ htail => exact .step hd (hnone htail c₁ _ h b c' hb)
  | feed span spaced h => exact .step hd (hfeed span spaced c₁ _ h b c' hb)

theorem next {f : Option Token → Parse γ} {g : Option Token → Parse δ}
    (hsome : ∀ t, Mirrors (e.Took flag) (f (some t)) (g (some (e.shift.move t))) Q)
    (hnone : Mirrors (e.Beside flag) (f none) (g none) Q)
    (hfeed : ∀ span spaced,
      Mirrors (e.Past flag span) (f none) (g (some (.feed span spaced))) Q) :
    Mirrors (e.Beside flag) (Grammar.next >>= f) (Grammar.next >>= g) Q :=
  .nextOrEnd hsome (fun _ => hnone) hfeed

theorem nextRequired {f : Token → Parse γ} {g : Token → Parse δ}
    (h : ∀ t, Mirrors (e.Took flag) (f t) (g (e.shift.move t)) Q) :
    Mirrors (e.Beside flag) (Grammar.nextRequired >>= f) (Grammar.nextRequired >>= g) Q := by
  unfold Grammar.nextRequired
  rw [bind_assoc, bind_assoc]
  have hunexpected : Fails (Grammar.unexpected none >>= f) := Fails.unexpected.bind
  exact .next h (.fails hunexpected) fun _ _ => .fails hunexpected

theorem push {t : Token} {f : Unit → Parse γ} {g : Unit → Parse δ}
    (h : Mirrors (e.Beside flag) (f ()) (g ()) Q) :
    Mirrors (e.Took flag) (Grammar.push t >>= f) (Grammar.push (e.shift.move t) >>= g) Q := by
  intro c d hP b c' hb
  rw [bind_of_ok (push_apply t c)] at hb
  exact .step (push_apply _ d) (h _ _ hP.push b c' hb)

theorem pushFeed {span : Span} {spaced : Bool} {g : Unit → Parse δ}
    (h : Mirrors (e.Beside flag) x (g ()) Q) :
    Mirrors (e.Past flag span) x (Grammar.push (.feed span spaced) >>= g) Q := by
  intro c d hP b c' hb
  exact .step (push_apply _ d) (h c _ (hP.push spaced) b c' hb)

theorem peek {f : Option Token → Parse γ} {g : Option Token → Parse δ}
    (hsome : ∀ t, Mirrors (e.Beside flag) (f (some t)) (g (some (e.shift.move t))) Q)
    (hnone : Mirrors (e.Beside flag) (f none) (g none) Q)
    (hfeed : ∀ span spaced, Mirrors (e.Beside flag) (f none) (g (some (.feed span spaced))) Q) :
    Mirrors (e.Beside flag) (Grammar.peek >>= f) (Grammar.peek >>= g) Q := by
  rw [peek_bind, peek_bind]
  exact .next (fun t => .push (hsome t)) hnone fun span spaced => .pushFeed (hfeed span spaced)

/-- A choice by the next token, which is taken if it fits. A line feed does not fit. -/
theorem accept {fits : Token → Bool} {f : Bool → Parse γ} {g : Bool → Parse δ}
    (hfits : ∀ t, fits (e.shift.move t) = fits t)
    (hfeed : ∀ span spaced, fits (.feed span spaced) = false)
    (h : ∀ b, Mirrors (e.Beside flag) (f b) (g b) Q) :
    Mirrors (e.Beside flag) (Grammar.accept fits >>= f) (Grammar.accept fits >>= g) Q := by
  rw [accept_bind, accept_bind]
  refine .next (fun t => ?_) (h false) fun span spaced => ?_
  · exact .ite (hfits t) (.took (h true)) (.push (h false))
  · dsimp only
    rw [hfeed]
    exact .pushFeed (h false)

theorem expect {fits : Token → Bool} {what : String} {f : Token → Parse γ} {g : Token → Parse δ}
    (hfits : ∀ t, fits (e.shift.move t) = fits t)
    (h : ∀ t, Mirrors (e.Beside flag) (f t) (g (e.shift.move t)) Q) :
    Mirrors (e.Beside flag) (Grammar.expect fits what >>= f) (Grammar.expect fits what >>= g)
      Q := by
  rw [expect_bind, expect_bind]
  have hexpected : ∀ token, Fails (Grammar.expected token what >>= f) :=
    fun _ => Fails.expected.bind
  refine .next (fun t => ?_) (.fails (hexpected none)) fun _ _ => .fails (hexpected none)
  exact .ite (hfits t) (.took (h t)) (.fails (hexpected _))

/-- Tokens are skipped, among them perhaps the line feed. Then there is a token that does not fit,
or both texts are at their ends, or only the smaller one is. -/
theorem skipWhileOrEnd {fits : Token → Bool} {f : Unit → Parse γ} {g : Unit → Parse δ}
    (hfits : ∀ t, fits (e.shift.move t) = fits t)
    (hsome : ∀ t, fits t = false →
      Mirrors (e.Took flag) (Grammar.push t >>= f) (Grammar.push (e.shift.move t) >>= g) Q)
    (hnone : e.tail = none → Mirrors (e.Beside flag) (f ()) (g ()) Q)
    (hpast : ∀ span spaced m, Mirrors (e.Past flag span) (f ())
      (if fits (.feed span spaced) then Grammar.skipWhile fits m >>= g
        else Grammar.push (.feed span spaced) >>= fun _ => g ()) Q) (n m : Nat) :
    Mirrors (e.Beside flag) (Grammar.skipWhile fits n >>= f) (Grammar.skipWhile fits m >>= g)
      Q := by
  induction n generalizing m with
  | zero => exact .fails Fails.exhausted.bind
  | succ n ih =>
    cases m with
    | zero => exact fun c d _ b c' _ => .inl ⟨d, rfl⟩
    | succ m =>
      rw [skipWhile_succ_bind, skipWhile_succ_bind]
      refine .nextOrEnd (fun t => ?_) hnone fun span spaced => hpast span spaced m
      dsimp only
      rw [hfits t]
      cases hfit : fits t with
      | true => exact .took (ih m)
      | false => exact hsome t hfit

theorem skipTerminatorsOrEnd {f : Unit → Parse γ} {g : Unit → Parse δ} {n m : Nat}
    (hsome : ∀ t : Token, t.isTerminator = false →
      Mirrors (e.Took flag) (Grammar.push t >>= f) (Grammar.push (e.shift.move t) >>= g) Q)
    (hnone : e.tail = none → Mirrors (e.Beside flag) (f ()) (g ()) Q)
    (hpast : ∀ span m, Mirrors (e.Past flag span) (f ()) (Grammar.skipTerminators m >>= g) Q) :
    Mirrors (e.Beside flag) (Grammar.skipTerminators n >>= f) (Grammar.skipTerminators m >>= g)
      Q := by
  refine .skipWhileOrEnd (fun _ => rfl) hsome hnone (fun span _ m => ?_) n m
  exact hpast span m

theorem skipTerminators {f : Unit → Parse γ} {g : Unit → Parse δ} {n m : Nat}
    (hneeds : NeedsToken (f ())) (h : Mirrors (e.Beside flag) (f ()) (g ()) Q) :
    Mirrors (e.Beside flag) (Grammar.skipTerminators n >>= f) (Grammar.skipTerminators m >>= g) Q :=
  .skipTerminatorsOrEnd (fun _ _ => .push h) (fun _ => h) fun _ _ => .past hneeds

theorem skipNewlines {f : Unit → Parse γ} {g : Unit → Parse δ} {n m : Nat}
    (hneeds : NeedsToken (f ())) (h : Mirrors (e.Beside flag) (f ()) (g ()) Q) :
    Mirrors (e.Beside flag) (Grammar.skipNewlines n >>= f) (Grammar.skipNewlines m >>= g) Q :=
  .skipWhileOrEnd (fun _ => rfl) (fun _ _ => .push h) (fun _ => h) (fun _ _ _ => .past hneeds) n m

/-- What ends a statement, perhaps the line feed. -/
theorem endOfCommandOrEnd {f : Unit → Parse γ} {g : Unit → Parse δ}
    (h : Mirrors (e.Beside flag) (f ()) (g ()) Q)
    (hpast : ∀ span, Mirrors (e.Past flag span) (f ()) (g ()) Q) :
    Mirrors (e.Beside flag) (Grammar.endOfCommand >>= f) (Grammar.endOfCommand >>= g) Q := by
  rw [endOfCommand_bind, endOfCommand_bind]
  refine .next (fun t => ?_) h fun span _ => hpast span
  exact .ite rfl (.took h) (.ite rfl (.push h) (.fails Fails.unexpected.bind))

/-! ## Spans and scopes -/

theorem noDo {f : Cursor → Parse γ} {g : Cursor → Parse δ}
    (hP : ∀ c d, P c d → d.noDo = c.noDo)
    (h : ∀ c d : Cursor, d.noDo = c.noDo → Mirrors P (f c) (g d) Q) :
    Mirrors P (get >>= f) (get >>= g) Q :=
  fun c d hcd b c' hb => h c d (hP c d hcd) c d hcd b c' hb

theorem getRight {g : Cursor → Parse δ} (h : ∀ d, Mirrors P x (g d) Q) :
    Mirrors P x (get >>= g) Q :=
  fun c d hcd b c' hb => h d c d hcd b c' hb

end Mirrors

section Scopes

variable [Moves α] {e : Embedding} {flag : Bool} {x y : Parse α}

theorem repeats_spanFrom (start : Span) :
    Repeats e flag (spanFrom start) (spanFrom (e.shift.move start)) := by
  intro c d hP span c' hspan
  cases hspan
  exact .of_ok rfl ⟨hP.last.join start, hP⟩

theorem repeats_siteAt (span : Span) :
    Repeats e flag (siteAt span) (siteAt (e.shift.move span)) := by
  intro c d hP site c' hsite
  cases hsite
  refine .of_ok rfl ⟨?_, hP⟩
  rw [hP.source.1, hP.source.2]
  rfl

theorem repeats_withNoDo {inner : Bool} (h : Repeats e inner x y) :
    Repeats e flag (withNoDo inner x) (withNoDo inner y) := by
  intro c d hP a c' hx
  obtain ⟨_, c₁, ha, hc'⟩ := bind_eq_ok (x := x) (s := { c with noDo := inner }) hx
  cases hc'
  have hset : e.Beside inner { c with noDo := inner } { d with noDo := inner } :=
    ⟨hP.source, ⟨rfl, rfl⟩, hP.last, hP.lexer⟩
  refine (h _ _ hset _ c₁ ha).bind fun b d₁ ⟨hb, hbeside⟩ => ?_
  exact .of_ok rfl ⟨hb, hbeside.source, hP.noDo, hbeside.last, hbeside.lexer⟩

end Scopes

end Spinel.Grammar
