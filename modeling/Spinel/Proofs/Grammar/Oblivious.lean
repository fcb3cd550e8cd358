import Spinel.Proofs.Grammar.Stages
import Spinel.Proofs.Source.Availability

/-!
# Rules do not see how much of the text is available

A part of a rule is oblivious if it does the same with all of the text available as without, its
errors included. An error shows the line that it points to. It points to a token in hand or to the
end of the text, so what a part has to know is that the lines of its tokens are available
(`Cursor.Knows`), and `Learns known x learned` says that `x` is oblivious where `known` is known,
after which `learned` is known as well.

A founded script is oblivious (`Script.Founded.oblivious`), so every rule is. Reading a program ends
with all of its text available, so both the program and the text shown with its failures are what
they are for a text that is given as a whole (`learns_commands`).
-/

namespace Spinel.Grammar

variable {α β : Type}

/-- The cursor with all of its text available. -/
def Cursor.full (c : Cursor) : Cursor := { c with lexer := c.lexer.full }

/-- The line of a token is available; without a token, all of the text is. -/
def Cursor.Knows (c : Cursor) (token : Option Token) : Prop :=
  Lexer.Shows c.lexer.stream (.ok token)

/-- The line that an error points to is available. -/
def Cursor.Explains (c : Cursor) : Stop → Prop
  | .syntaxError e => c.lexer.stream.HasLine e.position.line.toNat
  | .exhausted => True

/-- How a part may end that started at `c`: further on in the same text, in the way in which it ends
with all of the text available. -/
def Follows (c : Cursor) (learned : α → List (Option Token)) (full : EStateM.Result Stop Cursor α) :
    EStateM.Result Stop Cursor α → Prop
  | .ok a d => d.lexer.Proper ∧ c.lexer.stream.Extends d.lexer.stream ∧
      (∀ token ∈ learned a, d.Knows token) ∧ full = .ok a d.full
  | .error e d => c.lexer.stream.Extends d.lexer.stream ∧ d.Explains e ∧ full = .error e d.full

/-- With what is known, the part does the same with all of the text available, and teaches more. -/
def Learns (known : List (Option Token)) (x : Parse α) (learned : α → List (Option Token)) :
    Prop :=
  ∀ c : Cursor, c.lexer.Proper → (∀ token ∈ known, c.Knows token) →
    Follows c learned (x c.full) (x c)

/-- With what is known, the part does the same with all of the text available. -/
def Oblivious (known : List (Option Token)) (x : Parse α) : Prop := Learns known x fun _ => []

/-- The rules are oblivious. -/
def Rules.AreOblivious (r : Rules) : Prop := ∀ rule, Oblivious [] (r rule)

theorem Cursor.Knows.extend {c d : Cursor} {token : Option Token} (h : c.Knows token)
    (he : c.lexer.stream.Extends d.lexer.stream) : d.Knows token := by
  cases token with
  | none =>
    have hlength := Nat.le_of_eq (congrArg List.length he.whole)
    exact Nat.le_trans hlength (Nat.le_trans h he.horizon)
  | some t => exact Stream.HasLine.extend h he

/-! ## Sequences of steps -/

section Steps

variable {known more : List (Option Token)} {x : Parse α} {f : α → Parse β}
  {learned : β → List (Option Token)}

theorem Learns.mono {learned : α → List (Option Token)} (h : Learns known x learned)
    (hsub : known ⊆ more) : Learns more x learned :=
  fun c hc hknown => h c hc fun token ht => hknown token (hsub ht)

theorem Learns.pure {a : β} (h : learned a ⊆ known) : Learns known (pure a) learned :=
  fun _ hc hknown => ⟨hc, .refl _, fun token ht => hknown token (h ht), rfl⟩

/-- What the first part teaches can be used by the second. -/
theorem Learns.bind {lesson : α → List (Option Token)} (hx : Learns known x lesson)
    (hf : ∀ a, Learns (lesson a ++ known) (f a) learned) : Learns known (x >>= f) learned := by
  intro c hc hknown
  have hx := hx c hc hknown
  rw [bind_apply, bind_apply]
  cases hxc : x c with
  | error e d =>
    rw [hxc] at hx
    obtain ⟨hext, hexplains, hfull⟩ := hx
    exact ⟨hext, hexplains, by rw [hfull]⟩
  | ok a d =>
    rw [hxc] at hx
    obtain ⟨hd, hext, hlesson, hfull⟩ := hx
    rw [hfull]
    have hf := hf a d hd fun token ht => (List.mem_append.1 ht).elim (hlesson token)
      fun ht => (hknown token ht).extend hext
    dsimp only
    cases hfd : f a d with
    | error e d' =>
      rw [hfd] at hf
      exact ⟨hext.trans hf.1, hf.2⟩
    | ok b d' =>
      rw [hfd] at hf
      exact ⟨hf.1, hext.trans hf.2.1, hf.2.2⟩

theorem Oblivious.mono (h : Oblivious known x) (hsub : known ⊆ more) : Oblivious more x :=
  Learns.mono h hsub

theorem Oblivious.weaken (h : Oblivious [] x) : Oblivious known x := h.mono (List.nil_subset _)

theorem Learns.done {a : α} : Learns known (Pure.pure a) fun _ => [] := .pure (List.nil_subset _)

/-- A part that needs to know nothing and teaches nothing. -/
theorem Oblivious.bind (hx : Oblivious [] x) (hf : ∀ a, Learns known (f a) learned) :
    Learns known (x >>= f) learned :=
  Learns.bind hx.weaken hf

/-- Reading off the cursor what does not depend on how much of the text is available. -/
theorem Learns.get {f : Cursor → Parse β} (hfull : ∀ c : Cursor, f c.full = f c)
    (hf : ∀ c, Learns known (f c) learned) : Learns known (MonadState.get >>= f) learned := by
  intro c hc hknown
  have hrun : ∀ d : Cursor, (MonadState.get >>= f) d = f d d := fun d => rfl
  rw [hrun, hrun, hfull]
  exact hf c c hc hknown

/-! ## Errors -/

theorem learns_exhausted : Learns known exhausted learned :=
  fun _ _ _ => ⟨.refl _, trivial, rfl⟩

theorem learns_failAt {t : Token} (h : some t ∈ known) (fault : SyntaxFault) :
    Learns known (failAt t.span.start fault) learned := by
  intro c _ hknown
  have hline : c.lexer.stream.HasLine t.span.start.line.toNat := hknown _ h
  refine ⟨.refl _, hline, ?_⟩
  exact congrArg (fun e => EStateM.Result.error (Stop.syntaxError e) c.full)
    (SyntaxError.here_full hline fault)

theorem learns_failOn {token : Option Token} (h : token ∈ known) (fault : SyntaxFault) :
    Learns known (failOn token fault) learned := by
  cases token with
  | some t => exact learns_failAt h fault
  | none =>
    intro c _ hknown
    have hline : c.lexer.stream.HasLine c.lexer.stream.position.line.toNat := .inr (hknown _ h)
    refine ⟨.refl _, hline, ?_⟩
    exact congrArg (fun e => EStateM.Result.error (Stop.syntaxError e) c.full)
      (SyntaxError.here_full hline fault)

/-! ## Tokens -/

theorem learns_next : Learns known next fun token => [token] := by
  intro c hc hknown
  obtain ⟨hproper, hext, hshows, hfull⟩ := hc.next
  unfold next
  have hlexer : c.full.lexer = c.lexer.full := rfl
  rw [hlexer, hfull]
  cases hn : c.lexer.next with
  | mk result l =>
    rw [hn] at hproper hext hshows
    match result with
    | .ok none => exact ⟨hproper, hext, by simpa [Cursor.Knows] using hshows, rfl⟩
    | .ok (some t) => exact ⟨hproper, hext, by simpa [Cursor.Knows] using hshows, rfl⟩
    | .error e => exact ⟨hext, hshows, rfl⟩

theorem Learns.next {f : Option Token → Parse β}
    (h : ∀ token, Learns (token :: known) (f token) learned) :
    Learns known (Grammar.next >>= f) learned :=
  learns_next.bind h

theorem oblivious_push {t : Token} (h : some t ∈ known) : Oblivious known (push t) := by
  intro c hc hknown
  refine ⟨⟨hc.stream, ?_⟩, .refl _, by simp, rfl⟩
  intro t' ht'
  rcases List.mem_cons.1 ht' with rfl | ht'
  · exact hknown _ h
  · exact hc.pushed t' ht'

theorem Learns.push {t : Token} {f : Unit → Parse β} (h : some t ∈ known)
    (hf : ∀ a, Learns known (f a) learned) : Learns known (Grammar.push t >>= f) learned :=
  Learns.bind (oblivious_push h) hf

theorem learns_peek : Learns known peek fun token => [token] := by
  unfold peek
  refine .next fun token => ?_
  cases token with
  | none => exact .pure (by simp)
  | some t => exact .push List.mem_cons_self fun _ => .pure (by simp)

theorem Learns.peek {f : Option Token → Parse β}
    (h : ∀ token, Learns (token :: known) (f token) learned) :
    Learns known (Grammar.peek >>= f) learned :=
  learns_peek.bind h

end Steps

/-! ## Scripts and rules -/

/-- A script sees nothing but its tokens, so it is oblivious if these are known where it needs
them. -/
theorem Script.Founded.oblivious {s : Script α} {grounds : Set (Option Token)}
    {known : List (Option Token)} (h : s.Founded grounds)
    (hknown : ∀ token ∈ grounds, token ∈ known) : Oblivious known s.run := by
  induction s generalizing grounds known with
  | done a => exact .done
  | fail stop =>
    obtain rfl | ⟨token, htoken, fault, rfl⟩ := h
    · exact learns_exhausted
    · exact learns_failOn (hknown token htoken) fault
  | take next ih =>
    refine .next fun token => ih token (h token) ?_
    rintro other (rfl | hother)
    · exact List.mem_cons_self
    · exact List.mem_cons_of_mem token (hknown other hother)
  | giveBack t rest ih => exact .push (hknown _ h.1) fun _ => ih h.2 hknown
  | look next ih => exact .get (fun _ => rfl) fun c => ih _ _ _ (h _ _ _) hknown
  | reserve flag rest ih =>
    have hset : Oblivious known (modify fun c => { c with noDo := flag } : Parse Unit) :=
      fun c hc _ => ⟨hc, .refl _, by simp, rfl⟩
    exact Learns.bind hset fun _ => ih h hknown

theorem Regular.oblivious {x : Parse α} (h : Regular ∅ none x) : Oblivious [] x := by
  obtain ⟨s, rfl, -, hfounded⟩ := h
  exact hfounded.oblivious fun _ ht => ht.elim

theorem rules_oblivious (n : Nat) : (rules n).AreOblivious :=
  fun rule => (regular_rules n rule).oblivious

variable {known : List (Option Token)} {r : Rules} {n : Nat}

/-- No command is found only at the end of the text. -/
theorem learns_command (hr : r.AreOblivious) :
    Learns known (command r n) fun node => if node.isNone then [none] else [] := by
  refine regular_skipWhile.oblivious.bind fun _ => .peek fun token => ?_
  cases token with
  | none => exact .pure (by simp)
  | some t =>
    exact (hr _).bind fun _ => regular_endOfCommand.oblivious.bind fun _ => .pure (by simp)

/-- All of the text is available once a program is read. -/
theorem learns_commands (hr : r.AreOblivious) (n : Nat) :
    Learns known (commands r n) fun _ => [none] := by
  induction n generalizing known with
  | zero => exact learns_exhausted
  | succ n ih =>
    refine (learns_command hr).bind fun node => ?_
    cases node with
    | none => exact .pure (by simp)
    | some node => exact ih.bind fun _ => .pure (by simp)

end Spinel.Grammar
