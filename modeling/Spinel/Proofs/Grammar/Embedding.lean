import Spinel.Proofs.Source.Shift
import Spinel.Proofs.Token.Extent

/-!
# Texts inside larger texts

A text can stand inside a larger one, behind whole lines of it, and may be followed by a line feed
and more. An `Embedding` says how far it was moved and what follows, and `Embedding.Beside` says
that a cursor in the smaller text and one in the larger text have the same ahead of them.

Both cursors then take the same tokens up to the end of the smaller text, where the larger one has a
line feed (`Embedding.Beside.next`). A token that is given back leads to the same place again, also
where it was that line feed.
-/

namespace Spinel

/-- A line feed as a token. -/
def Token.feed (span : Span) (spaced : Bool) : Token := ⟨.endOfLine, "\n", span, spaced⟩

namespace Grammar

/-! ## Texts inside texts -/

/-- The lexer has no token ahead. -/
structure AtEnd (l : Lexer) : Prop where
  pushed : l.pushed = []
  rest : l.stream.rest.drop (Lexeme.blanks l.stream.rest false) = []

/-- How a text stands inside a larger one. -/
structure Embedding where
  /-- What both texts are read as. -/
  source : SourceId
  /-- How far it was moved. -/
  shift : Shift
  /-- Where it ends, read alone. -/
  stop : Position
  /-- What follows it behind a line feed, if it does not end the larger text. -/
  tail : Option (List Char)

namespace Embedding

variable (e : Embedding)

/-- What follows the smaller text. -/
def after : List Char :=
  match e.tail with
  | none => []
  | some q => '\n' :: q

/-- The spans end at the same place. What ends before the smaller text begins counts as ending
there. -/
def SameStop (a b : Span) : Prop := max b.stop e.shift.offset = a.stop + e.shift.offset

/-- Both lexers are within the smaller text, at the same place. -/
structure Inside (l m : Lexer) : Prop where
  stop : l.stream.position.advance l.stream.rest = e.stop
  rest : m.stream.rest = l.stream.rest ++ e.after
  position : m.stream.position = e.shift.move l.stream.position
  pushed : m.pushed = l.pushed.map e.shift.move

/-- The stream of the larger text stands behind the line feed that ends the smaller one. -/
structure Behind (m : Lexer) : Prop where
  tail : e.tail = some m.stream.rest
  position : m.stream.position = (e.shift.move e.stop).next '\n'

/-- Both cursors have the same tokens of the smaller text ahead, and both treat `do` as `flag` says.
At the end of the smaller text the line feed may have been read and given back. -/
structure Beside (flag : Bool) (c d : Cursor) : Prop where
  source : c.source = e.source ∧ d.source = e.source
  noDo : c.noDo = flag ∧ d.noDo = flag
  last : e.SameStop c.last d.last
  lexer : e.Inside c.lexer d.lexer ∨ AtEnd c.lexer ∧ e.Behind d.lexer ∧ ∃ span spaced,
    d.lexer.pushed = [.feed span spaced] ∧ span.stop = d.lexer.stream.position.offset

/-- Both cursors have just taken the same token, and could give it back. -/
structure Took (flag : Bool) (c d : Cursor) : Prop where
  source : c.source = e.source ∧ d.source = e.source
  noDo : c.noDo = flag ∧ d.noDo = flag
  last : e.SameStop c.last d.last
  beforeLast : e.SameStop c.beforeLast d.beforeLast
  inside : e.Inside c.lexer d.lexer

/-- At the end of the smaller text, the line feed behind it has just been taken. -/
structure Past (flag : Bool) (span : Span) (c d : Cursor) : Prop where
  source : c.source = e.source ∧ d.source = e.source
  noDo : c.noDo = flag ∧ d.noDo = flag
  atEnd : AtEnd c.lexer
  behind : e.Behind d.lexer
  pushed : d.lexer.pushed = []
  last : d.last = span
  stop : span.stop = d.lexer.stream.position.offset
  beforeLast : e.SameStop c.last d.beforeLast

variable {e} {flag : Bool} {c d : Cursor} {l m : Lexer}

theorem Took.beside (h : e.Took flag c d) : e.Beside flag c d :=
  ⟨h.source, h.noDo, h.last, .inl h.inside⟩

theorem Took.push (h : e.Took flag c d) {t : Token} :
    e.Beside flag (c.gaveBack t) (d.gaveBack (e.shift.move t)) :=
  ⟨h.source, h.noDo, h.beforeLast, .inl ⟨h.inside.stop, h.inside.rest, h.inside.position,
    congrArg (List.cons (e.shift.move t)) h.inside.pushed⟩⟩

theorem Past.push {span : Span} (h : e.Past flag span c d) (spaced : Bool) :
    e.Beside flag c (d.gaveBack (.feed span spaced)) :=
  ⟨h.source, h.noDo, h.beforeLast, .inr ⟨h.atEnd, ⟨h.behind.tail, h.behind.position⟩, span, spaced,
    congrArg (List.cons (Token.feed span spaced)) h.pushed, h.stop⟩⟩

/-- Tokens of the smaller text are tokens of the larger one. -/
theorem firstToken?_after {cs rest : List Char} {t : Token}
    (h : Lexeme.firstToken? cs = some (t, rest)) :
    Lexeme.gap (cs ++ e.after) = Lexeme.gap cs ∧
      Lexeme.firstToken? (cs ++ e.after) = some (t, rest ++ e.after) := by
  unfold after
  cases e.tail with
  | none => simpa only [List.append_nil] using ⟨trivial, h⟩
  | some q => exact Lexeme.firstToken?_append h q

theorem sameStop_move (span : Span) : e.SameStop span (e.shift.move span) := by
  unfold SameStop
  rw [Shift.move_stop]
  omega

/-- What is joined to a span of the smaller text is joined to it in the larger one. -/
theorem SameStop.join {a b : Span} (h : e.SameStop a b) (start : Span) :
    (e.shift.move start).join b = e.shift.move (start.join a) := by
  unfold SameStop at h
  have hstart : start.stop = start.start.offset + start.length := rfl
  simp only [Span.join, Shift.move_stop]
  simp only [Shift.move, Moves.moveBy, Span.mk.injEq, true_and]
  omega

/-! ## One token -/

theorem Inside.next_of_token {t : Token} {rest : List Char} (h : e.Inside l m)
    (hp : l.pushed = []) (hf : Lexeme.firstToken? l.stream.rest = some (t, rest)) :
    ∃ t' l' m', l.next = (.ok (some t'), l') ∧ m.next = (.ok (some (e.shift.move t')), m') ∧
      e.Inside l' m' := by
  have hp' : m.pushed = [] := by rw [h.pushed, hp]; rfl
  obtain ⟨hgap, hfirst⟩ := firstToken?_after (e := e) hf
  rw [← h.rest] at hgap hfirst
  obtain ⟨lexeme, l', hsplit, -, hnext, hrest, hpushed, hposition⟩ := Lexer.next_of_split hp hf
  obtain ⟨lexeme', m', hsplit', -, hnext', hrest', hpushed', hposition'⟩ :=
    Lexer.next_of_split hp' hfirst
  rw [hgap] at hsplit' hnext' hposition'
  -- Both texts have the same gap and the same rest around the lexeme, which is thus the same.
  have hlexeme : lexeme' = lexeme := by
    have hboth := hsplit'.symm.trans (h.rest.trans (congrArg (· ++ e.after) hsplit))
    rw [List.append_assoc, List.append_assoc] at hboth
    exact List.append_cancel_right (List.append_cancel_left hboth)
  subst hlexeme
  rw [h.position, Shift.move_advance] at hnext' hposition'
  refine ⟨_, l', m', hnext, hnext', ?_, ?_, ?_, ?_⟩
  · have hstop := (congrArg l.stream.position.advance hsplit).symm.trans h.stop
    rw [Position.advance_append, Position.advance_append] at hstop
    rw [hposition, hrest, hstop]
  · rw [hrest', hrest]
  · rw [hposition', hposition, Shift.move_advance]
  · rw [hpushed', hpushed]; rfl

/-- Where the smaller text has no further token, the larger one has the line feed. -/
theorem Inside.next_of_end {q : List Char} (h : e.Inside l m) (hl : AtEnd l)
    (hq : e.tail = some q) :
    ∃ span spaced m', m.next = (.ok (some (.feed span spaced)), m') ∧ e.Behind m' ∧
      m'.pushed = [] ∧ span.stop = m'.stream.position.offset := by
  have hp : m.pushed = [] := by rw [h.pushed, hl.pushed]; rfl
  have hrest : m.stream.rest = l.stream.rest ++ '\n' :: q := by rw [h.rest, after, hq]
  have hfirst := Lexeme.firstToken?_append_end hl.rest q
  rw [← hrest] at hfirst
  obtain ⟨lexeme, m', hsplit, -, hnext, hrest', hpushed, hposition⟩ := Lexer.next_of_split hp hfirst
  have hread : Lexeme.gap m.stream.rest ++ lexeme = l.stream.rest ++ ['\n'] := by
    have hboth := hsplit.symm.trans hrest
    rw [← List.append_assoc, List.append_cons] at hboth
    exact List.append_cancel_right hboth
  refine ⟨_, _, m', hnext, ⟨by rw [hrest', hq], ?_⟩, hpushed, ?_⟩
  · rw [hposition, ← Position.advance_append, hread, Position.advance_append, h.position,
      Shift.move_advance, h.stop]
    rfl
  · rw [hposition, Position.advance_offset]
    rfl

end Embedding

/-! ## The next token -/

theorem next_of_some {c : Cursor} {t : Token} {l : Lexer} (h : c.lexer.next = (.ok (some t), l)) :
    next c = .ok (some t) (c.took t l) := by
  unfold next
  rw [h]

theorem next_of_none {c : Cursor} {l : Lexer} (h : c.lexer.next = (.ok none, l)) :
    next c = .ok none (c.tookNone l) := by
  unfold next
  rw [h]

theorem AtEnd.next {c : Cursor} (h : AtEnd c.lexer) :
    ∃ l, next c = .ok none (c.tookNone l) ∧ AtEnd l ∧
      l.stream.position = c.lexer.stream.position.advance c.lexer.stream.rest ∧
      l.stream.rest = [] := by
  obtain ⟨l, hl, hrest, hpushed, hposition⟩ := Lexer.next_of_blanks h.pushed h.rest
  refine ⟨l, next_of_none hl, ⟨hpushed, ?_⟩, hposition, hrest⟩
  rw [hrest, List.drop_nil]

namespace Embedding

variable {e : Embedding} {flag : Bool} {c d : Cursor}

/-- What the next token of the larger text is where the smaller one has given `token` and left
`c`. -/
inductive Answers (e : Embedding) (flag : Bool) (c : Cursor) :
    Option Token → EStateM.Result Stop Cursor (Option Token) → Prop
  | token {t : Token} {d : Cursor} (h : e.Took flag c d) :
    Answers e flag c (some t) (.ok (some (e.shift.move t)) d)
  | none {d : Cursor} (h : e.Beside flag c d) (hend : AtEnd c.lexer) (htail : e.tail = none) :
    Answers e flag c none (.ok none d)
  | feed {d : Cursor} (span : Span) (spaced : Bool) (h : e.Past flag span c d) :
    Answers e flag c none (.ok (some (.feed span spaced)) d)

theorem Beside.next_at_end (h : e.Beside flag c d) (hend : AtEnd c.lexer) {token : Option Token}
    {c' : Cursor} (hc : next c = .ok token c') : e.Answers flag c' token (next d) := by
  obtain ⟨l, hl, hend', hposition, hrest⟩ := hend.next
  cases hl.symm.trans hc
  -- The line feed behind the text, if there is one, is still to be read or was given back.
  rcases h.lexer with hin | ⟨-, hbehind, span, spaced, hpushed, hstop⟩
  · cases hq : e.tail with
    | none =>
      have hafter : d.lexer.stream.rest = c.lexer.stream.rest := by
        rw [hin.rest, after, hq, List.append_nil]
      have hd : AtEnd d.lexer := by
        refine ⟨by rw [hin.pushed, hend.pushed]; rfl, ?_⟩
        rw [hafter]
        exact hend.rest
      obtain ⟨m, hm, hend'', hposition', hrest'⟩ := hd.next
      rw [hm]
      refine .none ⟨h.source, h.noDo, h.last, .inl ⟨?_, ?_, ?_, ?_⟩⟩ hend' hq
      · rw [Cursor.tookNone_lexer, hposition, hrest]
        exact hin.stop
      · rw [Cursor.tookNone_lexer, Cursor.tookNone_lexer, hrest', hrest, after, hq]
        rfl
      · rw [Cursor.tookNone_lexer, Cursor.tookNone_lexer, hposition', hposition, hafter,
          hin.position, Shift.move_advance]
      · rw [Cursor.tookNone_lexer, Cursor.tookNone_lexer, hend''.pushed, hend'.pushed]
        rfl
    | some q =>
      obtain ⟨span, spaced, m, hm, hbehind, hpushed, hstop⟩ := hin.next_of_end hend hq
      rw [next_of_some hm]
      exact .feed span spaced ⟨h.source, h.noDo, hend', hbehind, hpushed, rfl, hstop, h.last⟩
  · have hm : d.lexer.next = (.ok (some (.feed span spaced)), { d.lexer with pushed := [] }) := by
      unfold Lexer.next
      rw [hpushed]
    rw [next_of_some hm]
    exact .feed span spaced ⟨h.source, h.noDo, hend', ⟨hbehind.tail, hbehind.position⟩, rfl, rfl,
      hstop, h.last⟩

/-- Both texts have the same token ahead, or the larger one has the line feed. -/
theorem Beside.next (h : e.Beside flag c d) {token : Option Token} {c' : Cursor}
    (hc : next c = .ok token c') : e.Answers flag c' token (next d) := by
  by_cases hend : AtEnd c.lexer
  · exact h.next_at_end hend hc
  · have hin : e.Inside c.lexer d.lexer := h.lexer.resolve_right fun hb => hend hb.1
    cases hp : c.lexer.pushed with
    | cons t ts =>
      have hl : c.lexer.next = (.ok (some t), { c.lexer with pushed := ts }) := by
        unfold Lexer.next
        rw [hp]
      have hm : d.lexer.next =
          (.ok (some (e.shift.move t)), { d.lexer with pushed := ts.map e.shift.move }) := by
        unfold Lexer.next
        rw [hin.pushed, hp]
        rfl
      cases (next_of_some hl).symm.trans hc
      rw [next_of_some hm]
      exact .token ⟨h.source, h.noDo, sameStop_move t.span, h.last,
        ⟨hin.stop, hin.rest, hin.position, rfl⟩⟩
    | nil =>
      cases hf : Lexeme.firstToken? c.lexer.stream.rest with
      | some split =>
        obtain ⟨t, l, m, hl, hm, hin'⟩ := hin.next_of_token hp hf
        cases (next_of_some hl).symm.trans hc
        rw [next_of_some hm]
        exact .token ⟨h.source, h.noDo, sameStop_move t.span, h.last, hin'⟩
      | none =>
        -- A malformed lexeme: the smaller text gives no token.
        obtain ⟨error, l, hl⟩ := Lexer.next_of_malformed hp hf fun hrest => hend ⟨hp, hrest⟩
        unfold Grammar.next at hc
        rw [hl] at hc
        cases hc

end Embedding

end Grammar

end Spinel
