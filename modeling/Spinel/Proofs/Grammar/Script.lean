import Mathlib.Data.Set.Insert
import Mathlib.Logic.Relation
import Spinel.Grammar.Program
import Spinel.Proofs.Computation

/-!
# What a parse does, step by step

A `Script` spells out a part of the parser as the small steps that it takes: taking the next token,
giving a token back, looking at what rules look at, and reserving `do`. It knows of the text only
the tokens that it has taken. `Script.run` is the part that it spells out.

A script is orderly if it gives back only the token that it has just taken, and leaves `do` reserved
as it was. What every step keeps is kept by the run of an orderly script (`Script.Orderly.kept`). So
at each moment of it that the cursor has on record at most one token is given back, and the cursor
remembers the last token taken (`Script.Orderly.inStep`).

A script is founded on tokens if they and those that it takes are the only ones that it gives back
and that its errors point to.
-/

namespace Spinel

/-- Only the tokens that were given back are fewer when a token is taken. -/
theorem Lexer.pushed_next (l : Lexer) : l.next.2.pushed = l.pushed.tail := by
  unfold Lexer.next
  cases hp : l.pushed with
  | nil => simp
  | cons t ts => rfl

namespace Grammar

variable {α β : Type}

/-- The cursor that a part of the parser leaves, whether it succeeds or fails. -/
def cursorAfter (x : Parse α) (c : Cursor) : Cursor :=
  match x c with
  | .ok _ c' => c'
  | .error _ c' => c'

/-- The small steps of a part of the parser. -/
inductive Script (α : Type) where
  | done (a : α)
  /-- Give up, with a message that shows where the lexer stands. -/
  | fail (stop : Lexer → Stop)
  | take (next : Option Token → Script α)
  | giveBack (t : Token) (rest : Script α)
  /-- Look at the span of the last token, the source, and whether `do` is reserved. -/
  | look (next : Span → SourceId → Bool → Script α)
  /-- Reserve `do` for a loop, or no longer. -/
  | reserve (flag : Bool) (rest : Script α)

namespace Script

/-- The part of the parser that a script spells out. -/
def run : Script α → Parse α
  | done a => pure a
  | fail stop => fun c => .error (stop c.lexer) c
  | take next => do (next (← Grammar.next)).run
  | giveBack t rest => do push t; rest.run
  | look next => do
    let c ← get
    (next c.last c.source c.noDo).run
  | reserve flag rest => do modify fun c => { c with noDo := flag }; rest.run

/-- One script after another. -/
def bind : Script α → (α → Script β) → Script β
  | done a, k => k a
  | fail stop, _ => fail stop
  | take next, k => take fun t => (next t).bind k
  | giveBack t rest, k => giveBack t (rest.bind k)
  | look next, k => look fun last source noDo => (next last source noDo).bind k
  | reserve flag rest, k => reserve flag (rest.bind k)

theorem run_bind (s : Script α) (k : α → Script β) :
    (s.bind k).run = s.run >>= fun a => (k a).run := by
  induction s with
  | done a => rfl
  | fail stop => rfl
  | take next ih => simp only [bind, run, ih, bind_assoc]
  | giveBack t rest ih => simp only [bind, run, ih, bind_assoc]
  | look next ih => simp only [bind, run, ih, bind_assoc]
  | reserve flag rest ih => simp only [bind, run, ih, bind_assoc]

end Script

/-! ## The cursor and the tokens taken -/

/-- The span of the last token taken, or the beginning of the text. -/
def spanOfLast : List Token → Span
  | [] => .point .start
  | t :: _ => t.span

/-- At most one token is given back, and the last span is that of the last token that was taken and
not given back. -/
structure Moment.InStep (m : Moment) : Prop where
  pushed : m.pushed.length ≤ 1
  last : m.last = spanOfLast m.taken

/-- The present moment is the last one on record, and the parser was in step at all of them. -/
structure Cursor.InStep (c : Cursor) : Prop where
  present : c.passed.head? = some c.moment
  passed : ∀ m ∈ c.passed, m.InStep

/-- The token has just been taken: none is given back, and the cursor also has the span of the one
before it. -/
structure Cursor.JustTook (c : Cursor) (t : Token) : Prop extends c.InStep where
  pushed : c.lexer.pushed = []
  taken : ∃ earlier, c.taken = t :: earlier ∧ c.beforeLast = spanOfLast earlier

/-- The cursor is in step, with the token just taken, if one is named. -/
def Cursor.Keeps (c : Cursor) : Option Token → Prop
  | none => c.InStep
  | some t => c.JustTook t

section Cursor

variable {c c' : Cursor} {t : Token}

theorem Cursor.Keeps.inStep {fresh : Option Token} (h : c.Keeps fresh) : c.InStep := by
  cases fresh with
  | none => exact h
  | some t => exact h.toInStep

theorem Cursor.InStep.moment (h : c.InStep) : c.moment.InStep :=
  h.passed _ (List.mem_of_mem_head? h.present)

/-- A cursor in step stays so when a moment is noted at which it is in step. -/
theorem Cursor.InStep.noted {d : Cursor} (h : c.InStep) (hpassed : d.passed = c.passed)
    (hd : d.moment.InStep) : d.noted.InStep := by
  refine ⟨rfl, ?_⟩
  unfold Cursor.noted
  rw [hpassed, List.forall_mem_cons]
  exact ⟨hd, h.passed⟩

/-- Taking a token leaves all of the cursor as it was but for the lexer, the spans and the record.
-/
theorem next_eq_ok_some (h : next c = .ok (some t) c') :
    ∃ l : Lexer, l.pushed = c.lexer.pushed.tail ∧ c' = c.took t l := by
  have hpushed := Lexer.pushed_next c.lexer
  unfold next at h
  split at h
  · cases h
  · next hnext =>
    cases h
    rw [hnext] at hpushed
    exact ⟨_, hpushed, rfl⟩
  · cases h

theorem next_eq_ok_none (h : next c = .ok none c') :
    ∃ l : Lexer, l.pushed = c.lexer.pushed.tail ∧ c' = c.tookNone l := by
  have hpushed := Lexer.pushed_next c.lexer
  unfold next at h
  split at h
  · next hnext =>
    cases h
    rw [hnext] at hpushed
    exact ⟨_, hpushed, rfl⟩
  · cases h
  · cases h

theorem next_eq_error {e : Stop} (h : next c = .error e c') :
    ∃ l : Lexer, l.pushed = c.lexer.pushed.tail ∧ c' = c.tookNone l := by
  have hpushed := Lexer.pushed_next c.lexer
  unfold next at h
  split at h
  · cases h
  · cases h
  · next hnext =>
    cases h
    rw [hnext] at hpushed
    exact ⟨_, hpushed, rfl⟩

theorem noDo_next_some (h : next c = .ok (some t) c') : c'.noDo = c.noDo := by
  obtain ⟨l, -, rfl⟩ := next_eq_ok_some h
  rfl

theorem noDo_next_none (h : next c = .ok none c') : c'.noDo = c.noDo := by
  obtain ⟨l, -, rfl⟩ := next_eq_ok_none h
  rfl

theorem Cursor.InStep.tail_pushed (h : c.InStep) : c.lexer.pushed.tail = [] := by
  have hle := h.moment.pushed
  rw [← List.length_eq_zero_iff, List.length_tail]
  exact Nat.sub_eq_zero_of_le hle

/-- A token that is taken has just been taken: at most one was given back before. -/
theorem Cursor.InStep.took (h : c.InStep) (hnext : next c = .ok (some t) c') : c'.JustTook t := by
  obtain ⟨l, hpushed, rfl⟩ := next_eq_ok_some hnext
  rw [h.tail_pushed] at hpushed
  refine ⟨h.noted rfl ⟨?_, rfl⟩, hpushed, c.taken, rfl, h.moment.last⟩
  rw [Cursor.moment, hpushed]
  exact Nat.zero_le 1

theorem Cursor.InStep.withLexer (h : c.InStep) {l : Lexer}
    (hpushed : l.pushed = c.lexer.pushed.tail) : (c.tookNone l).InStep := by
  refine h.noted rfl ⟨?_, h.moment.last⟩
  rw [Cursor.moment, hpushed, h.tail_pushed]
  exact Nat.zero_le 1

theorem Cursor.InStep.ended (h : c.InStep) (hnext : next c = .ok none c') : c'.InStep := by
  obtain ⟨l, hpushed, rfl⟩ := next_eq_ok_none hnext
  exact h.withLexer hpushed

theorem Cursor.InStep.failed {e : Stop} (h : c.InStep) (hnext : next c = .error e c') :
    c'.InStep := by
  obtain ⟨l, hpushed, rfl⟩ := next_eq_error hnext
  exact h.withLexer hpushed

/-- A token that has just been taken may be given back: the cursor has the span before it. -/
theorem Cursor.JustTook.gaveBack (h : c.JustTook t) (hpush : push t c = .ok () c') :
    c'.InStep := by
  obtain ⟨earlier, htaken, hbefore⟩ := h.taken
  cases hpush
  refine h.toInStep.noted rfl ⟨?_, ?_⟩
  · simp [Cursor.moment, Lexer.push, h.pushed]
  · simp [Cursor.moment, htaken, hbefore]

end Cursor

/-! ## Orderly scripts -/

namespace Script

/-- The script gives back only a token that it has just taken, `fresh` at its beginning, and ends
with `do` reserved as `home` says, if it is reserved as `flag` says at its beginning. -/
def Orderly (home : Bool) : Script α → (fresh : Option Token) → (flag : Bool) → Prop
  | done _, _, flag => flag = home
  | fail _, _, _ => True
  | take next, _, flag =>
    (next none).Orderly home none flag ∧ ∀ t, (next (some t)).Orderly home (some t) flag
  | giveBack t rest, fresh, flag => fresh = some t ∧ rest.Orderly home none flag
  | look next, fresh, flag => ∀ last source, (next last source flag).Orderly home fresh flag
  | reserve flag rest, fresh, _ => rest.Orderly home fresh flag

variable {home middle flag : Bool} {fresh : Option Token}

/-- A script that gives back nothing at first may also follow on a token. -/
theorem Orderly.after {s : Script α} (h : s.Orderly home none flag) :
    s.Orderly home fresh flag := by
  induction s generalizing flag with
  | done a => exact h
  | fail stop => trivial
  | take next ih => exact h
  | giveBack t rest ih => cases h.1
  | look next ih =>
    intro last source
    exact ih last source flag (h last source)
  | reserve flag' rest ih => exact ih h

theorem Orderly.bind {s : Script α} {k : α → Script β} (hs : s.Orderly middle fresh flag)
    (hk : ∀ a, (k a).Orderly home none middle) : (s.bind k).Orderly home fresh flag := by
  induction s generalizing fresh flag with
  | done a =>
    cases hs
    exact (hk a).after
  | fail stop => trivial
  | take next ih => exact ⟨ih none hs.1, fun t => ih (some t) (hs.2 t)⟩
  | giveBack t rest ih => exact ⟨hs.1, ih hs.2⟩
  | look next ih =>
    intro last source
    exact ih last source flag (hs last source)
  | reserve flag' rest ih => exact ih hs

/-- A property of the cursor, with the token just taken if one is named, that every step keeps. -/
structure Kept (I : Cursor → Option Token → Prop) : Prop where
  took : ∀ {c c' fresh t}, I c fresh → Grammar.next c = .ok (some t) c' → I c' (some t)
  ended : ∀ {c c' fresh}, I c fresh → Grammar.next c = .ok none c' → I c' none
  gaveBack : ∀ {c c' t}, I c (some t) → push t c = .ok () c' → I c' none
  reserved : ∀ {c fresh} flag, I c fresh → I { c with noDo := flag } fresh

/-- What every step keeps holds at the end of an orderly script, or before the step that failed. One
that succeeds ends with `do` reserved as `home` says. -/
theorem Orderly.kept {I : Cursor → Option Token → Prop} (hI : Kept I) {J : Cursor → Prop}
    (hpresent : ∀ {c fresh}, I c fresh → J c)
    (hfailed : ∀ {c c' fresh e}, I c fresh → Grammar.next c = .error e c' → J c') {s : Script α}
    {c : Cursor} (hs : s.Orderly home fresh c.noDo) (hc : I c fresh) :
    match s.run c with
    | .ok _ c' => c'.noDo = home ∧ ∃ fresh, I c' fresh
    | .error _ c' => J c' := by
  induction s generalizing c fresh with
  | done b => exact ⟨hs, fresh, hc⟩
  | fail stop => exact hpresent hc
  | take next ih =>
    rw [run]
    cases hnext : Grammar.next c with
    | ok token d =>
      rw [bind_of_ok hnext]
      cases token with
      | none =>
        have hnone := hs.1
        rw [← noDo_next_none hnext] at hnone
        exact ih none hnone (hI.ended hc hnext)
      | some t =>
        have hsome := hs.2 t
        rw [← noDo_next_some hnext] at hsome
        exact ih (some t) hsome (hI.took hc hnext)
    | error e d =>
      rw [bind_of_error hnext]
      exact hfailed hc hnext
  | giveBack t rest ih =>
    obtain ⟨rfl, hrest⟩ := hs
    have hpush : ∃ d, push t c = .ok () d ∧ d.noDo = c.noDo := ⟨_, rfl, rfl⟩
    obtain ⟨d, hpush, hnoDo⟩ := hpush
    rw [run, bind_of_ok hpush]
    rw [← hnoDo] at hrest
    exact ih hrest (hI.gaveBack hc hpush)
  | look next ih => exact ih _ _ _ (hs _ _) hc
  | reserve flag rest ih => exact ih (c := { c with noDo := flag }) hs (hI.reserved flag hc)

theorem Orderly.run_ok {I : Cursor → Option Token → Prop} (hI : Kept I) {s : Script α}
    {c c' : Cursor} {a : α} (hs : s.Orderly home fresh c.noDo) (hc : I c fresh)
    (hrun : s.run c = .ok a c') : c'.noDo = home ∧ ∃ fresh, I c' fresh := by
  have hkept := hs.kept hI (J := fun _ => True) (fun _ => trivial) (fun _ _ => trivial) hc
  rwa [hrun] at hkept

theorem noDo_of_orderly {s : Script α} {c c' : Cursor} {a : α}
    (hs : s.Orderly home fresh c.noDo) (hrun : s.run c = .ok a c') : c'.noDo = home := by
  have htrivial : Kept fun _ _ => True := by constructor <;> intros <;> trivial
  exact (hs.run_ok htrivial trivial hrun).1

/-- What was on record is, and the cursor is in step. -/
theorem kept_inStep (c : Cursor) :
    Kept fun d fresh => d.Keeps fresh ∧ c.passed <:+ d.passed where
  took := by
    rintro d d' fresh t ⟨hd, hpassed⟩ hnext
    refine ⟨hd.inStep.took hnext, ?_⟩
    obtain ⟨l, -, rfl⟩ := next_eq_ok_some hnext
    exact hpassed.trans (List.suffix_cons _ _)
  ended := by
    rintro d d' fresh ⟨hd, hpassed⟩ hnext
    refine ⟨hd.inStep.ended hnext, ?_⟩
    obtain ⟨l, -, rfl⟩ := next_eq_ok_none hnext
    exact hpassed.trans (List.suffix_cons _ _)
  gaveBack := by
    rintro d d' t ⟨hd, hpassed⟩ hpush
    refine ⟨Cursor.JustTook.gaveBack hd hpush, ?_⟩
    cases hpush
    exact hpassed.trans (List.suffix_cons _ _)
  reserved := by
    rintro d fresh flag ⟨hd, hpassed⟩
    refine ⟨?_, hpassed⟩
    cases fresh with
    | none => exact ⟨hd.present, hd.passed⟩
    | some t => exact ⟨⟨hd.present, hd.passed⟩, hd.pushed, hd.taken⟩

/-- An orderly script is in step at all moments, whether it succeeds or fails. -/
theorem Orderly.inStep {s : Script α} {c : Cursor} (hs : s.Orderly home none c.noDo)
    (hc : c.InStep) : (cursorAfter s.run c).InStep ∧ c.passed <:+ (cursorAfter s.run c).passed := by
  have hkept := hs.kept (kept_inStep c) (J := fun d => d.InStep ∧ c.passed <:+ d.passed)
    (fun ⟨hd, hpassed⟩ => ⟨hd.inStep, hpassed⟩)
    (fun {d d' fresh e} ⟨hd, hpassed⟩ hnext => by
      refine ⟨hd.inStep.failed hnext, ?_⟩
      obtain ⟨l, -, rfl⟩ := next_eq_error hnext
      exact hpassed.trans (List.suffix_cons _ _))
    ⟨hc, List.suffix_refl _⟩
  unfold cursorAfter
  cases hrun : s.run c with
  | ok a d =>
    rw [hrun] at hkept
    obtain ⟨-, fresh, hd, hpassed⟩ := hkept
    exact ⟨hd.inStep, hpassed⟩
  | error e d =>
    rw [hrun] at hkept
    exact hkept

/-! ## Founded scripts -/

/-- An error shows the line of one of the tokens; without a token, the line where the text ends. -/
def Grounds (known : Set (Option Token)) (stop : Lexer → Stop) : Prop :=
  (stop = fun _ => .exhausted) ∨ ∃ token ∈ known, ∃ fault, stop = fun l => .syntaxError
    (.here l.stream ((token.map (·.span.start)).getD l.stream.position) fault)

/-- The script gives back only tokens that are known, at its beginning or because it has taken them,
and its errors point to such tokens. -/
def Founded : Script α → (known : Set (Option Token)) → Prop
  | done _, _ => True
  | fail stop, known => Grounds known stop
  | take next, known => ∀ token, (next token).Founded (insert token known)
  | giveBack t rest, known => some t ∈ known ∧ rest.Founded known
  | look next, known => ∀ last source flag, (next last source flag).Founded known
  | reserve _ rest, known => rest.Founded known

variable {known more : Set (Option Token)}

theorem Founded.mono {s : Script α} (h : s.Founded known) (hsub : known ⊆ more) :
    s.Founded more := by
  induction s generalizing known more with
  | done a => trivial
  | fail stop => exact h.imp_right fun ⟨token, hknown, hstop⟩ => ⟨token, hsub hknown, hstop⟩
  | take next ih =>
    intro token
    exact ih token (h token) (Set.insert_subset_insert hsub)
  | giveBack t rest ih => exact ⟨hsub h.1, ih h.2 hsub⟩
  | look next ih =>
    intro last source flag
    exact ih last source flag (h last source flag) hsub
  | reserve flag rest ih => exact ih h hsub

theorem Founded.bind {s : Script α} {k : α → Script β} (hs : s.Founded known)
    (hk : ∀ a, (k a).Founded known) : (s.bind k).Founded known := by
  induction s generalizing known with
  | done a => exact hk a
  | fail stop => exact hs
  | take next ih =>
    intro token
    exact ih token (hs token) fun a => (hk a).mono (Set.subset_insert token known)
  | giveBack t rest ih => exact ⟨hs.1, ih hs.2 hk⟩
  | look next ih =>
    intro last source flag
    exact ih last source flag (hs last source flag) hk
  | reserve flag rest ih => exact ih hs hk

end Script

end Grammar

end Spinel
