import Spinel.Proofs.Grammar.Embedded
import Spinel.Proofs.Grammar.Progress

/-!
# Commands in a larger text

A text that is a program may stand in a larger one with a line feed behind it. Reading the larger
text repeats reading the smaller one up to its end. The line feed is then taken by whichever loop
over terminators is running, and what follows is read from there. `commandsAfter` is that loop with
the number of terminators it may still skip, and `mirrors_commands` puts the commands of the smaller
text in front of whatever the larger one goes on with.
-/

namespace Spinel.Grammar

/-! ## Commands behind terminators -/

/-- The commands up to the end of the text, where no terminators are ahead. -/
def commandsHere (r : Rules) (n : Nat) : Parse (List Node) := do
  match ← peek with
  | none => pure []
  | some _ => do
    let node ← r .statement
    endOfCommand
    let nodes ← commands r n
    pure (node :: nodes)

/-- The commands behind at most `limit` terminators. -/
def commandsAfter (r : Rules) (limit n : Nat) : Parse (List Node) := do
  skipTerminators limit
  commandsHere r n

theorem commands_succ (r : Rules) (n : Nat) : commands r (n + 1) = commandsAfter r n n := by
  rw [commands, command, commandsAfter, commandsHere]
  simp only [bind_assoc]
  congr 1
  funext _
  congr 1
  funext token
  cases token with
  | none => rfl
  | some t => simp only [bind_assoc, pure_bind]

theorem AtEnd.skipWhile {fits : Token → Bool} {n : Nat} {c c' : Cursor} {u : Unit}
    (h : AtEnd c.lexer) (hx : Grammar.skipWhile fits n c = .ok u c') : AtEnd c'.lexer := by
  cases n with
  | zero => cases hx
  | succ n =>
    obtain ⟨l, hnext, hend, -⟩ := h.next
    rw [← bind_pure (Grammar.skipWhile fits (n + 1)), skipWhile_succ_bind, bind_of_ok hnext] at hx
    cases hx
    exact hend

theorem commandsHere_at_end {r : Rules} {n : Nat} {c c' : Cursor} {a : List Node}
    (h : AtEnd c.lexer) (hx : commandsHere r n c = .ok a c') : a = [] := by
  obtain ⟨l, hnext, -⟩ := h.next
  rw [commandsHere, peek_bind, bind_of_ok hnext] at hx
  cases hx
  rfl

theorem commands_at_end {r : Rules} {n : Nat} {c c' : Cursor} {a : List Node}
    (h : AtEnd c.lexer) (hx : commands r n c = .ok a c') : a = [] := by
  cases n with
  | zero => cases hx
  | succ n =>
    rw [commands_succ] at hx
    obtain ⟨u, c₁, hskip, hhere⟩ := bind_eq_ok hx
    exact commandsHere_at_end (h.skipWhile hskip) hhere

/-! ## Commands in a larger text -/

section Commands

variable {e : Embedding} {flag : Bool} {r r' : Rules} {rest : List Node}

/-- What is read behind the line feed, by whichever loop takes it. -/
def Continues (e : Embedding) (flag : Bool) (r : Rules) (rest : List Node) : Prop :=
  ∀ span c d, e.Past flag span c d → ∀ limit n,
    Yields (commandsAfter r limit n) d fun out _ => out = rest

/-- The commands of the larger text are those of the smaller one and the rest. -/
def Embedding.Prepends (e : Embedding) (rest a : List Node) (_ : Cursor) (out : List Node)
    (_ : Cursor) : Prop :=
  out = e.shift.move a ++ rest

theorem Continues.commands (h : Continues e flag r rest) {span : Span} {c d : Cursor}
    (hP : e.Past flag span c d) (n : Nat) :
    Yields (Grammar.commands r n) d fun out _ => out = rest := by
  cases n with
  | zero => exact .inl ⟨d, rfl⟩
  | succ n =>
    rw [commands_succ]
    exact h span c d hP n n

/-- A statement, and the commands behind it. -/
theorem mirrors_statement (hr : r.Repeat e r') (hrest : Continues e flag r' rest) {n m : Nat}
    (hmore : Mirrors (e.Beside flag) (commands r n) (commands r' m) (e.Prepends rest)) :
    Mirrors (e.Beside flag)
      (do
        let node ← r .statement
        endOfCommand
        let nodes ← commands r n
        pure (node :: nodes))
      (do
        let node ← r' .statement
        endOfCommand
        let nodes ← commands r' m
        pure (node :: nodes))
      (e.Prepends rest) := by
  refine .bind (hr.repeats .statement) fun node => .endOfCommandOrEnd ?_ fun span => ?_
  · refine .map hmore fun nodes _ out _ hout => ?_
    exact congrArg (List.cons (e.shift.move node)) hout
  · intro c d hP a c' ha
    obtain ⟨nodes, c₁, hnodes, hpure⟩ := bind_eq_ok ha
    cases hpure
    cases commands_at_end hP.atEnd hnodes
    refine (hrest.commands hP m).bind fun out d' hout => .of_ok rfl ?_
    exact congrArg (List.cons (e.shift.move node)) hout

theorem mirrors_commandsAfter (hr : r.Repeat e r') (hend : e.tail = none → rest = [])
    (hrest : Continues e flag r' rest) {n m : Nat}
    (hmore : Mirrors (e.Beside flag) (commands r n) (commands r' m) (e.Prepends rest))
    (limit limit' : Nat) :
    Mirrors (e.Beside flag) (commandsAfter r limit n) (commandsAfter r' limit' m)
      (e.Prepends rest) := by
  have hstatement := mirrors_statement hr hrest hmore
  refine .skipTerminatorsOrEnd (fun t _ => ?_) (fun htail => ?_) fun span limit => ?_
  · exact .upToRecord (push_peek t _) (push_peek _ _) (.push hstatement)
  · rw [commandsHere, commandsHere, peek_bind, peek_bind]
    refine .next (fun t => .push hstatement) ?_ fun span spaced c d hP => ?_
    · intro c d _ a c' ha
      cases ha
      exact .of_ok rfl (hend htail).symm
    · cases htail.symm.trans hP.behind.tail
  · intro c d hP a c' ha
    cases commandsHere_at_end hP.atEnd ha
    exact hrest span c d hP limit m

/-- The commands of the larger text are those of the smaller one, moved, and the rest. -/
theorem mirrors_commands (hr : r.Repeat e r') (hend : e.tail = none → rest = [])
    (hrest : Continues e flag r' rest) (n m : Nat) :
    Mirrors (e.Beside flag) (commands r n) (commands r' m) (e.Prepends rest) := by
  induction n generalizing m with
  | zero => exact .fails .exhausted
  | succ n ih =>
    cases m with
    | zero => exact .exhausted_right
    | succ m =>
      rw [commands_succ, commands_succ]
      exact mirrors_commandsAfter hr hend hrest (ih m) n m

end Commands

/-! ## Whole programs -/

theorem parse_eq_program {source : SourceId} {s : Stream} {nodes : List Node} :
    (parse source s).1 = .program nodes ↔ ∃ c, program source s = .ok nodes c := by
  unfold parse
  constructor
  · intro h
    split at h
    · next body c hbody =>
      cases h
      exact ⟨c, hbody⟩
    · cases h
    · cases h
  · rintro ⟨c, h⟩
    rw [h]

/-- A text read alone and at the beginning of a larger one. -/
def Embedding.first (source : SourceId) (text following : String) : Embedding :=
  ⟨source, .zero, Position.start.advance text.toList, some following.toList⟩

theorem beside_first (source : SourceId) (text following : String) :
    (Embedding.first source text following).Beside false (.start source (.ofText text))
      (.start source (.ofText (text ++ "\n" ++ following))) := by
  refine ⟨⟨rfl, rfl⟩, ⟨rfl, rfl⟩, rfl, .inl ⟨rfl, ?_, rfl, rfl⟩⟩
  change (text ++ "\n" ++ following).toList = text.toList ++ '\n' :: following.toList
  rw [String.toList_append, String.toList_append, List.append_assoc]
  rfl

/-- A text behind another one and a line feed, read alone and there. -/
def Embedding.behind (source : SourceId) (text following : String) (tail : Option (List Char)) :
    Embedding :=
  ⟨source, .behind text, Position.start.advance following.toList, tail⟩

/-- Where the first text has been read and the line feed behind it, the second text begins. -/
theorem beside_behind {source : SourceId} {text following rest : String} {tail : Option (List Char)}
    {span : Span} {c d : Cursor} (h : (Embedding.first source text rest).Past false span c d)
    (hrest : rest.toList =
      following.toList ++ (Embedding.behind source text following tail).after) :
    (Embedding.behind source text following tail).Beside false (.start source (.ofText following))
      d := by
  have hplace : d.lexer.stream.position =
      ⟨text.length + 1, .ofNat (text.toList.count '\n' + 1), 0⟩ := by
    rw [h.behind.position, Shift.move_next]
    simp [Embedding.first, Position.next, Position.advance_offset, Position.advance_line,
      Position.start, String.length_toList, Shift.move, Moves.moveBy, Shift.zero]
  have hstop : d.last.stop = text.length + 1 := by rw [h.last, h.stop, hplace]
  refine ⟨⟨rfl, h.source.2⟩, ⟨rfl, h.noDo.2⟩, ?_, .inl ⟨rfl, ?_, ?_, h.pushed⟩⟩
  · change max d.last.stop (text.length + 1) = 0 + (text.length + 1)
    rw [hstop, Nat.max_self, Nat.zero_add]
  · exact (Option.some.inj h.behind.tail).symm.trans hrest
  · rw [hplace]
    simp [Embedding.behind, Shift.behind, Stream.ofText, Position.start, Shift.move,
      Moves.moveBy]

/-- Depth is never lacking for a whole program. -/
theorem program_of_yields {source : SourceId} {s : Stream} {Q : List Node → Cursor → Prop}
    (h : Yields (commands (rules (bound s.rest.length)) (bound s.rest.length)) (.start source s)
      Q) :
    ∃ nodes c, program source s = .ok nodes c ∧ Q nodes c := by
  rcases h with ⟨c, hc⟩ | ⟨nodes, c, hc, hQ⟩
  · exact absurd hc (program_ne_exhausted source s c)
  · exact ⟨nodes, c, hc, hQ⟩

theorem commandsAfter_of_parse {source : SourceId} {text : String} {nodes : List Node}
    (h : (parse source (.ofText text)).1 = .program nodes) :
    ∃ n c, commandsAfter (rules (n + 1)) n n (.start source (.ofText text)) = .ok nodes c := by
  obtain ⟨c, hc⟩ := parse_eq_program.1 h
  obtain ⟨n, hn⟩ : ∃ n, bound text.toList.length = n + 1 := ⟨_, rfl⟩
  change commands (rules (bound text.toList.length)) (bound text.toList.length) _ = _ at hc
  rw [hn, commands_succ] at hc
  exact ⟨n, c, hc⟩

end Spinel.Grammar
