import Spinel.Proofs.Grammar.Stages
import Spinel.Proofs.Token.Extent
import Spinel.Proofs.Token.Plain

/-!
# Where the parser stands

A cursor stands at an offset of the text (`Cursor.StandsAt`): the last token taken stops there, and
what comes next comes behind it. A token that is taken moves it to where the token stops, and one
that is given back moves it back (`StandsAt.took`, `HasTaken.gaveBack`). So a part of a rule that
keeps to the tokens it has taken only moves on (`Script.Orderly.standsAt`). `Spans text p fresh x Q`
says that of the part `x`, and that what it gives goes with the offset where the cursor stands in
the end; there is one rule for each small step that the grammar is made of.
-/

namespace Spinel

/-! ## Stretches of a text -/

theorem Span.stop_join (a b : Span) : (a.join b).stop = max b.stop a.stop := by
  simp only [join, stop]
  omega

theorem Span.offset_le_stop (s : Span) : s.start.offset ≤ s.stop := Nat.le_add_right _ _

/-- Characters that a stream goes through, and the place where it begins to. -/
structure Laid where
  base : Position
  chars : List Char

/-- The characters that a stream has not read. -/
def Stream.ahead (s : Stream) : Laid := ⟨s.position, s.rest⟩

namespace Laid

/-- The offset behind the last character. -/
def stop (text : Laid) : Nat := text.base.offset + text.chars.length

/-- The stretch lies inside the text, and begins at a place that the stream goes through. -/
structure Has (text : Laid) (s : Span) : Prop where
  start : ∃ before rest, text.chars = before ++ rest ∧ s.start = text.base.advance before
  inside : s.stop ≤ text.stop

theorem Has.join {text : Laid} {a b : Span} (ha : text.Has a) (hb : b.stop ≤ text.stop) :
    text.Has (a.join b) where
  start := ha.start
  inside := by
    rw [Span.stop_join]
    exact Nat.max_le.2 ⟨hb, ha.inside⟩

end Laid

/-- The token is plain and lies in the text, behind an offset. -/
structure Token.Follows (text : Laid) (p : Nat) (t : Token) : Prop where
  placed : text.Has t.span
  behind : p ≤ t.span.start.offset
  nonempty : 0 < t.span.length
  plain : t.Plain

theorem Token.Follows.lt_stop {text : Laid} {p : Nat} {t : Token} (h : t.Follows text p) :
    p < t.span.stop :=
  Nat.lt_of_le_of_lt h.behind (Nat.lt_add_of_pos_right h.nonempty)

theorem Token.Follows.le_stop {text : Laid} {p : Nat} {t : Token} (h : t.Follows text p) :
    p ≤ t.span.stop :=
  Nat.le_of_lt h.lt_stop

/-! ## The lexer -/

namespace Lexer

/-- The lexer has read some of the text, up to the offset `q` at least. -/
def ReadTo (text : Laid) (q : Nat) (l : Lexer) : Prop :=
  ∃ before, text.chars = before ++ l.stream.rest ∧
    l.stream.position = text.base.advance before ∧ q ≤ text.base.offset + before.length

/-- What comes next comes behind an offset: the token that was given back, or what has not been
read. -/
def Ahead (text : Laid) (p : Nat) (l : Lexer) : Prop :=
  match l.pushed with
  | [] => l.ReadTo text p
  | [t] => t.Follows text p ∧ l.ReadTo text t.span.stop
  | _ => False

variable {text : Laid} {p q : Nat} {l l' : Lexer} {t : Token}

theorem ReadTo.le_stop (h : l.ReadTo text q) : q ≤ text.stop := by
  obtain ⟨before, htext, -, hq⟩ := h
  rw [Laid.stop, htext, List.length_append]
  omega

/-- A token that is read off the text lies where it should, and the lexer goes on behind it. -/
theorem ReadTo.next_some (h : l.ReadTo text p) (hp : l.pushed = [])
    (hnext : l.next = (.ok (some t), l')) :
    t.Follows text p ∧ l'.pushed = [] ∧ l'.ReadTo text t.span.stop := by
  have hplain : t.Plain := plain_of_next hp hnext
  obtain ⟨before, htext, hplace, hle⟩ := h
  obtain ⟨first, hfirst⟩ := firstToken?_of_next hp hnext
  obtain ⟨lexeme, l'', hsplit, hne, hsome, hrest, hpushed, hposition⟩ := next_of_split hp hfirst
  cases hsome.symm.trans hnext
  generalize Lexeme.gap l.stream.rest = gap at *
  rw [hplace, ← Position.advance_append] at hposition ⊢
  rw [hsplit] at htext
  refine ⟨⟨⟨⟨before ++ gap, lexeme ++ first.2, ?_, rfl⟩, ?_⟩, ?_, ?_, hplain⟩, hpushed, ?_⟩
  · rw [htext, List.append_assoc]
  · simp only [Token.placed_span, Span.stop, Laid.stop, Position.advance_offset, htext,
      List.length_append]
    omega
  · rw [Token.placed_span, Position.advance_offset, List.length_append]
    omega
  · exact List.length_pos_iff.2 hne
  · refine ⟨before ++ gap ++ lexeme, ?_, ?_, ?_⟩
    · rw [htext, hrest, List.append_assoc, List.append_assoc]
    · simp only [hposition, Position.advance_append]
    · simp only [Token.placed_span, Span.stop, Position.advance_offset, List.length_append]
      omega

theorem Ahead.next_some (h : l.Ahead text p) (hnext : l.next = (.ok (some t), l')) :
    t.Follows text p ∧ l'.pushed = [] ∧ l'.ReadTo text t.span.stop := by
  unfold Ahead at h
  split at h
  · next hp => exact h.next_some hp hnext
  · next u hp =>
    unfold next at hnext
    rw [hp] at hnext
    cases hnext
    exact ⟨h.1, rfl, h.2⟩
  · cases h

theorem Ahead.next_none (h : l.Ahead text p) (hnext : l.next = (.ok none, l')) :
    l'.Ahead text p := by
  unfold Ahead at h
  split at h
  · next hp =>
    obtain ⟨before, htext, hplace, hle⟩ := h
    have hend := drop_blanks_of_next hp hnext
    obtain ⟨l'', hnone, hrest, hpushed, hposition⟩ := next_of_blanks hp hend
    cases hnone.symm.trans hnext
    unfold Ahead
    rw [hpushed]
    refine ⟨before ++ l.stream.rest, by rw [hrest, List.append_nil, htext], ?_, ?_⟩
    · rw [hposition, hplace, Position.advance_append]
    · rw [List.length_append]
      omega
  · next u hp =>
    unfold next at hnext
    rw [hp] at hnext
    cases hnext
  · cases h

theorem Ahead.of_readTo (hp : l.pushed = []) (h : l.ReadTo text p) : l.Ahead text p := by
  unfold Ahead
  rw [hp]
  exact h

theorem Ahead.le_stop (h : l.Ahead text p) : p ≤ text.stop := by
  unfold Ahead at h
  split at h
  · exact h.le_stop
  · exact Nat.le_trans h.1.le_stop h.2.le_stop
  · cases h

theorem Ahead.of_push (hp : l.pushed = []) (ht : t.Follows text p) (h : l.ReadTo text t.span.stop) :
    (l.push t).Ahead text p := by
  unfold Ahead push
  rw [hp]
  exact ⟨ht, h⟩

end Lexer

/-! ## The cursor -/

namespace Grammar

variable {α β : Type} {text : Laid} {p q : Nat} {c c' : Cursor} {t : Token}

/-- The last token taken stops at the offset `p`, and what comes next comes behind it. -/
structure Cursor.StandsAt (text : Laid) (p : Nat) (c : Cursor) : Prop where
  last : c.last.stop = p
  ahead : c.lexer.Ahead text p

/-- The cursor stands behind a token that has just been taken, and stood at `p` before. -/
structure Cursor.HasTaken (text : Laid) (p : Nat) (t : Token) (c : Cursor) : Prop where
  last : c.last = t.span
  beforeLast : c.beforeLast.stop = p
  follows : t.Follows text p
  pushed : c.lexer.pushed = []
  readTo : c.lexer.ReadTo text t.span.stop

/-- The cursor stands at `p`, with a token taken from there if one is named. -/
def Cursor.From (text : Laid) (p : Nat) : Option Token → Cursor → Prop
  | none, c => c.StandsAt text p
  | some t, c => c.HasTaken text p t

namespace Cursor

theorem HasTaken.kept (h : c.HasTaken text p t) : c.StandsAt text t.span.stop :=
  ⟨congrArg Span.stop h.last, .of_readTo h.pushed h.readTo⟩

theorem StandsAt.took (h : c.StandsAt text p) (hnext : next c = .ok (some t) c') :
    c'.HasTaken text p t := by
  unfold next at hnext
  split at hnext
  · cases hnext
  · next l hl =>
    cases hnext
    obtain ⟨hfollows, hpushed, hread⟩ := h.ahead.next_some hl
    exact ⟨rfl, h.last, hfollows, hpushed, hread⟩
  · cases hnext

theorem StandsAt.ended (h : c.StandsAt text p) (hnext : next c = .ok none c') :
    c'.StandsAt text p := by
  unfold next at hnext
  split at hnext
  · next l hl =>
    cases hnext
    exact ⟨h.last, h.ahead.next_none hl⟩
  · cases hnext
  · cases hnext

theorem HasTaken.gaveBack (h : c.HasTaken text p t) (hpush : push t c = .ok () c') :
    c'.StandsAt text p := by
  cases hpush
  exact ⟨h.beforeLast, .of_push h.pushed h.follows h.readTo⟩

/-- Wherever a token was taken from, the cursor stands somewhere. -/
theorem From.standsAt {fresh : Option Token} (h : c.From text p fresh) :
    ∃ q, p ≤ q ∧ c.StandsAt text q := by
  cases fresh with
  | none => exact ⟨p, Nat.le_refl p, h⟩
  | some t => exact ⟨t.span.stop, h.follows.le_stop, h.kept⟩

theorem From.reserve {fresh : Option Token} (h : c.From text p fresh) (flag : Bool) :
    Cursor.From text p fresh { c with noDo := flag } := by
  cases fresh with
  | none => exact ⟨h.last, h.ahead⟩
  | some t => exact ⟨h.last, h.beforeLast, h.follows, h.pushed, h.readTo⟩

/-- No step moves the cursor back. -/
theorem kept_from : Script.Kept fun c fresh => ∃ q, p ≤ q ∧ c.From text q fresh where
  took := by
    rintro c c' fresh t ⟨q, hpq, hc⟩ hnext
    obtain ⟨q', hqq', hstands⟩ := hc.standsAt
    exact ⟨q', Nat.le_trans hpq hqq', hstands.took hnext⟩
  ended := by
    rintro c c' fresh ⟨q, hpq, hc⟩ hnext
    obtain ⟨q', hqq', hstands⟩ := hc.standsAt
    exact ⟨q', Nat.le_trans hpq hqq', hstands.ended hnext⟩
  gaveBack := fun ⟨q, hpq, hc⟩ hpush => ⟨q, hpq, HasTaken.gaveBack hc hpush⟩
  reserved flag := fun ⟨q, hpq, hc⟩ => ⟨q, hpq, hc.reserve flag⟩

end Cursor

/-- An orderly script moves the cursor on. -/
theorem Script.Orderly.standsAt {s : Script α} {home : Bool} {fresh : Option Token} {a : α}
    (hs : s.Orderly home fresh c.noDo) (hc : c.From text p fresh) (hrun : s.run c = .ok a c') :
    ∃ q, p ≤ q ∧ c'.StandsAt text q := by
  obtain ⟨-, _, q, hpq, hfrom⟩ := hs.run_ok Cursor.kept_from ⟨p, Nat.le_refl p, hc⟩ hrun
  obtain ⟨q', hqq', hstands⟩ := hfrom.standsAt
  exact ⟨q', Nat.le_trans hpq hqq', hstands⟩

/-! ## What a part gives -/

/-- If the cursor stands at `p`, with the token `fresh` taken from there, and the part succeeds, the
cursor stands at some `q` behind it, and what the part gives is in `Q q`. -/
def Spans (text : Laid) (p : Nat) (fresh : Option Token) (x : Parse α) (Q : Nat → α → Prop) :
    Prop :=
  ∀ c a c', c.From text p fresh → x c = .ok a c' → ∃ q, p ≤ q ∧ c'.StandsAt text q ∧ Q q a

section Steps

variable {fresh : Option Token} {x : Parse α} {f : α → Parse β} {P : Nat → α → Prop}
  {Q : Nat → β → Prop}

theorem Spans.pure {b : β} (h : Q p b) : Spans text p none (pure b) Q := by
  intro c a c' hc hok
  cases hok
  exact ⟨p, Nat.le_refl p, hc, h⟩

theorem Spans.bind (hx : Spans text p fresh x P)
    (hf : ∀ q a, p ≤ q → P q a → Spans text q none (f a) Q) :
    Spans text p fresh (x >>= f) Q := by
  intro c b c' hc hok
  obtain ⟨a, d, hxa, hfa⟩ := bind_eq_ok hok
  obtain ⟨q, hpq, hd, ha⟩ := hx c a d hc hxa
  obtain ⟨q', hqq', hend, hb⟩ := hf q a hpq ha d b c' hd hfa
  exact ⟨q', Nat.le_trans hpq hqq', hend, hb⟩

/-- A part that gives back no token it has not taken itself, and gives nothing of interest. -/
theorem Spans.steady (hx : Steady none x) (hf : ∀ q a, p ≤ q → Spans text q none (f a) Q) :
    Spans text p none (x >>= f) Q := by
  obtain ⟨s, rfl, horderly⟩ := hx
  refine Spans.bind (P := fun _ _ => True) (fun c a c' hc hok => ?_) fun q a hpq _ => hf q a hpq
  obtain ⟨q, hpq, hend⟩ := (horderly c.noDo).standsAt hc hok
  exact ⟨q, hpq, hend, trivial⟩

/-! ### Failures -/

theorem spans_failAt {position : Position} {fault : SyntaxFault} :
    Spans text p fresh (failAt position fault) Q :=
  fun _ _ _ _ hok => by cases hok

theorem spans_expected {token : Option Token} {what : String} :
    Spans text p fresh (expected token what) Q :=
  fun _ _ _ _ hok => by cases hok

theorem spans_unexpected {token : Option Token} : Spans text p fresh (unexpected token) Q := by
  cases token <;> exact fun _ _ _ _ hok => by cases hok

theorem spans_exhausted : Spans text p fresh exhausted Q := fun _ _ _ _ hok => by cases hok

/-! ### Tokens -/

theorem Spans.keep {y : Parse β} (h : Spans text t.span.stop none y Q) :
    Spans text p (some t) y Q := by
  intro c b c' hc hok
  obtain ⟨q, hle, hend, hb⟩ := h c b c' hc.kept hok
  exact ⟨q, Nat.le_trans hc.follows.le_stop hle, hend, hb⟩

theorem Spans.push {f : Unit → Parse β} (h : Spans text p none (f ()) Q) :
    Spans text p (some t) (push t >>= f) Q := by
  intro c b c' hc hok
  exact h _ b c' (hc.gaveBack rfl) hok

theorem Spans.next {f : Option Token → Parse β}
    (hsome : ∀ t, t.Follows text p → Spans text p (some t) (f (some t)) Q)
    (hnone : Spans text p none (f none) Q) : Spans text p none (next >>= f) Q := by
  intro c b c' hc hok
  obtain ⟨o, d, hnext, hrest⟩ := bind_eq_ok hok
  cases o with
  | none => exact hnone d b c' (hc.ended hnext) hrest
  | some t =>
    have htaken : d.HasTaken text p t := hc.took hnext
    exact hsome t htaken.follows d b c' htaken hrest

theorem Spans.nextRequired {f : Token → Parse β}
    (h : ∀ t, t.Follows text p → Spans text p (some t) (f t) Q) :
    Spans text p none (nextRequired >>= f) Q := by
  have hend : (unexpected none >>= f) = unexpected none := rfl
  unfold Grammar.nextRequired
  rw [bind_assoc]
  refine .next (fun t ht => ?_) ?_
  · rw [pure_bind]
    exact h t ht
  · rw [hend]
    exact spans_unexpected

theorem Spans.expect {fits : Token → Bool} {what : String} {f : Token → Parse β}
    (h : ∀ t, t.Follows text p → fits t = true → Spans text t.span.stop none (f t) Q) :
    Spans text p none (expect fits what >>= f) Q := by
  have hfail : ∀ token, (expected token what >>= f) = expected token what := fun _ => rfl
  unfold Grammar.expect
  rw [bind_assoc]
  refine .next (fun t ht => ?_) ?_
  · dsimp only
    split
    · next hfits =>
      rw [pure_bind]
      exact .keep (h t ht hfits)
    · rw [hfail]
      exact spans_expected
  · rw [hfail]
    exact spans_expected

theorem Spans.accept {fits : Token → Bool} {y z : Parse β}
    (hy : ∀ q, p < q → Spans text q none y Q) (hz : ∀ q, p ≤ q → Spans text q none z Q) :
    Spans text p none (do if ← accept fits then y else z) Q := by
  unfold Grammar.accept
  rw [bind_assoc]
  refine .next (fun t ht => ?_) ?_
  · dsimp only
    split
    · rw [pure_bind]
      exact .keep (hy _ ht.lt_stop)
    · rw [bind_assoc]
      refine .push ?_
      rw [pure_bind]
      exact hz p (Nat.le_refl p)
  · rw [pure_bind]
    exact hz p (Nat.le_refl p)

theorem Spans.skipWhile {fits : Token → Bool} {n : Nat} {f : Unit → Parse β}
    (h : ∀ q, p ≤ q → Spans text q none (f ()) Q) :
    Spans text p none (skipWhile fits n >>= f) Q :=
  .steady regular_skipWhile.steady fun q _ hpq => h q hpq

/-! ### Spans and scopes -/

/-- The stretch up to the last token taken stops where the cursor stands. -/
theorem Spans.spanFrom {start : Span} {f : Span → Parse β}
    (h : ∀ last : Span, last.stop = p → p ≤ text.stop →
      Spans text p none (f (start.join last)) Q) :
    Spans text p none (spanFrom start >>= f) Q := by
  intro c b c' hc hok
  exact h c.last hc.last hc.ahead.le_stop c b c' hc hok

theorem Spans.noDo {f : Bool → Parse β} (h : ∀ flag, Spans text p none (f flag) Q) :
    Spans text p none (do f (← get).noDo) Q :=
  fun c => h c.noDo c

theorem spans_withNoDo {flag : Bool} (h : Spans text p none x P) :
    Spans text p none (withNoDo flag x) P := by
  intro c a c' hc hok
  obtain ⟨b, d, hx, hset⟩ := bind_eq_ok (show (x >>= fun a => do
    modify fun d => { d with noDo := c.noDo }
    Pure.pure a) { c with noDo := flag } = .ok a c' from hok)
  obtain ⟨q, hpq, hd, hb⟩ := h _ b d (hc.reserve flag) hx
  have hfrom : d.From text q none := hd
  cases hset
  exact ⟨q, hpq, hfrom.reserve c.noDo, hb⟩

end Steps

end Grammar

end Spinel
