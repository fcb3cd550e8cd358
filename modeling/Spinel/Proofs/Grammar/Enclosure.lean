import Spinel.Proofs.Grammar.Commands

/-!
# Programs as bodies

The commands of a text are read as the statements of a body if the text stands inside a larger one
that closes the body behind it (`mirrors_body`). Bodies look for their closers at the beginning of
every statement, and headers look for `then` and `do` there. No statement begins with one of those
words or with a terminator (`rules_refuse`), so nothing of the smaller text is taken for them.
-/

namespace Spinel.Grammar

variable {α β : Type}

/-! ## What begins no statement -/

/-- Whether a token can stand in front of a statement without being a part of it. -/
def opensNothing (t : Token) : Bool :=
  t.isTerminator || isCloser ["end", "else", "elsif", "then", "do"] t

/-- The part fails before a token that begins no statement. -/
def Refuses (x : Parse α) : Prop :=
  ∀ t, opensNothing t = true → Fails (push t >>= fun _ => x)

theorem Refuses.bind {x : Parse α} {f : α → Parse β} (h : Refuses x) : Refuses (x >>= f) := by
  intro t ht
  rw [← bind_assoc]
  exact (h t ht).bind

theorem Refuses.nextRequired {f : Token → Parse β}
    (h : ∀ t, opensNothing t = true → Fails (f t)) : Refuses (Grammar.nextRequired >>= f) :=
  fun t ht _ b c' hb => h t ht _ b c' hb

theorem opensNothing_iff {t : Token} : opensNothing t = true ↔
    t.kind = .endOfLine ∨
    t.kind = .separator ∧ t.text ∈ [";", "end", "else", "elsif", "then", "do"] ∨
    t.kind = .identifier ∧ t.text ∈ ["end", "else", "elsif", "then", "do"] := by
  simp only [opensNothing, isCloser, Token.isTerminator, Token.isSeparator, Bool.or_eq_true,
    Bool.and_eq_true, beq_iff_eq, List.contains_iff_mem, List.mem_cons (a := t.text) (b := ";")]
  constructor
  · rintro ((h | ⟨hk, ht⟩) | ⟨hk | hk, ht⟩)
    · exact .inl h
    · exact .inr (.inl ⟨hk, .inl ht⟩)
    · exact .inr (.inr ⟨hk, ht⟩)
    · exact .inr (.inl ⟨hk, .inr ht⟩)
  · rintro (h | ⟨hk, ht | ht⟩ | ⟨hk, ht⟩)
    · exact .inl (.inl h)
    · exact .inl (.inr ⟨hk, ht⟩)
    · exact .inr ⟨.inr hk, ht⟩
    · exact .inr ⟨.inl hk, ht⟩

theorem isTerminator_of_identifier {t : Token} (h : t.kind = .identifier) :
    t.isTerminator = false := by
  unfold Token.isTerminator Token.isSeparator
  rw [h]
  rfl

theorem isTerminator_of_opening {t : Token} (h : opensNothing t = false) :
    t.isTerminator = false := by
  unfold opensNothing at h
  exact (Bool.or_eq_false_iff.1 h).1

theorem isCloser_of_opening {t : Token} (h : opensNothing t = false) {closers : List String}
    (hclosers : ∀ text ∈ closers, text ∈ ["end", "else", "elsif", "then", "do"]) :
    isCloser closers t = false := by
  rw [← Bool.not_eq_true]
  intro hcloser
  unfold opensNothing isCloser at h
  unfold isCloser at hcloser
  rw [Bool.and_eq_true, List.contains_iff_mem] at hcloser
  rw [hcloser.1, List.contains_iff_mem.2 (hclosers _ hcloser.2), Bool.and_self, Bool.or_true] at h
  cases h

theorem isKeyword_of_opening {t : Token} (h : opensNothing t = false) {keyword : String}
    (hkeyword : keyword ∈ ["end", "else", "elsif", "then", "do"]) :
    t.isKeyword keyword = false := by
  rw [← Bool.not_eq_true]
  intro hfits
  unfold Token.isKeyword at hfits
  rw [Bool.and_eq_true, beq_iff_eq, beq_iff_eq] at hfits
  have hcloser : isCloser [keyword] t = false :=
    isCloser_of_opening h fun text htext => by rwa [List.mem_singleton.1 htext]
  unfold isCloser at hcloser
  rw [hfits.1, hfits.2] at hcloser
  simp at hcloser

theorem kind_of_opensNothing {t : Token} (h : opensNothing t = true) : t.kind ≠ .operator := by
  rcases opensNothing_iff.1 h with hk | ⟨hk, -⟩ | ⟨hk, -⟩ <;> rw [hk] <;> decide

variable {r : Rules} {n : Nat}

theorem fails_bracket {t : Token} (h : t.text ∉ ["(", "[", "\x7b", "::"]) :
    Fails (bracket r n t) := by
  unfold bracket
  split
  case h_5 => exact .unexpected
  all_goals
    next htext =>
      rw [htext] at h
      exact absurd (by decide) h

theorem fails_word {t : Token} (h : t.text ∈ ["end", "else", "elsif", "then", "do"]) :
    Fails (word r n t) := by
  unfold word
  split
  case h_22 =>
    have hreserved : reservedWords.contains t.text = true := by
      simp only [List.mem_cons, List.not_mem_nil, or_false] at h
      rcases h with h | h | h | h | h <;> rw [h] <;> decide
    rw [if_pos hreserved]
    exact .unexpected
  all_goals
    next htext =>
      rw [htext] at h
      exact absurd h (by decide)

theorem refuses_primary : Refuses (primary r n) := by
  refine .nextRequired fun t ht => ?_
  rcases opensNothing_iff.1 ht with hk | ⟨hk, htext⟩ | ⟨hk, htext⟩ <;> rw [hk]
  · exact .unexpected
  · refine fails_bracket fun hbracket => ?_
    simp only [List.mem_cons, List.not_mem_nil, or_false] at htext
    rcases htext with h | h | h | h | h | h <;> rw [h] at hbracket <;> revert hbracket <;> decide
  · exact fails_word htext

theorem refuses_operand : Refuses (operand r n) := by
  refine .nextRequired fun t ht => ?_
  have hoperator : ∀ text, t.isOperator text = false := by
    intro text
    unfold Token.isOperator
    rw [beq_eq_false_iff_ne.2 (kind_of_opensNothing ht), Bool.false_and]
  simp only [hoperator, Bool.or_self, Bool.false_eq_true, if_false]
  exact refuses_primary.bind t ht

theorem refuses_binary (h : Refuses (r .operand)) (levels : List (List String)) :
    Refuses (binary r n levels) := by
  induction levels with
  | nil => exact h
  | cons operators tighter ih => exact ih.bind

theorem refuses_negation (h : Refuses (r .expression)) : Refuses (negation r) := by
  refine .nextRequired fun t ht => ?_
  have hnot : t.isKeyword "not" = false := by
    unfold Token.isKeyword
    rcases opensNothing_iff.1 ht with hk | ⟨hk, -⟩ | ⟨-, htext⟩
    · rw [hk]
      rfl
    · rw [hk]
      rfl
    · have hne : t.text ≠ "not" := by
        intro hnot
        rw [hnot] at htext
        revert htext
        decide
      rw [beq_eq_false_iff_ne.2 hne, Bool.and_false]
  simp only [hnot, Bool.false_eq_true, if_false]
  exact h t ht

/-- No rule takes a token that begins no statement. -/
theorem rules_refuse (n : Nat) (rule : Rule) : Refuses (rules n rule) := by
  induction n generalizing rule with
  | zero => exact fun t _ => .of_bind fun _ => .exhausted
  | succ n ih =>
    cases rule with
    | statement => exact (ih .clause).bind
    | clause => exact (ih .negation).bind
    | negation => exact refuses_negation (ih .expression)
    | expression => exact (ih .value).bind
    | value => exact (refuses_binary (ih .operand) binaryLevels).bind.bind
    | operand => exact refuses_operand
    | conditional start => exact (ih .clause).bind

/-! ## Bodies behind terminators -/

/-- Statements up to one of the closers, where no terminators are ahead. -/
def bodyHere (r : Rules) (closers : List String) (n : Nat) : Parse (List Node × Token) := do
  match ← next with
  | none => expected none (describe (closers.headD ""))
  | some t =>
    if isCloser closers t then pure ([], t)
    else do
      push t
      let node ← r .statement
      endOfCommand
      let (nodes, closer) ← body r closers n
      pure (node :: nodes, closer)

/-- Statements up to one of the closers, behind at most `limit` terminators. -/
def bodyAfter (r : Rules) (closers : List String) (limit n : Nat) : Parse (List Node × Token) := do
  skipTerminators limit
  bodyHere r closers n

theorem body_succ (r : Rules) (closers : List String) (n : Nat) :
    body r closers (n + 1) = bodyAfter r closers n n := rfl

section Bodies

variable {e : Embedding} {flag : Bool} {r r' : Rules} {closers : List String}
  {closed : Token → Cursor → Prop}

/-- The body is closed behind the line feed, by whichever loop takes it. -/
def Closes (e : Embedding) (flag : Bool) (r : Rules) (closers : List String)
    (closed : Token → Cursor → Prop) : Prop :=
  ∀ span c d, e.Past flag span c d → ∀ limit n,
    Yields (bodyAfter r closers limit n) d fun out d' => out.1 = [] ∧ closed out.2 d'

/-- The statements of the body are the commands of the smaller text, and the body is closed. -/
def Embedding.Encloses (e : Embedding) (closed : Token → Cursor → Prop) (a : List Node)
    (_ : Cursor) (out : List Node × Token) (d : Cursor) : Prop :=
  out.1 = e.shift.move a ∧ closed out.2 d

theorem Closes.body (h : Closes e flag r closers closed) {span : Span} {c d : Cursor}
    (hP : e.Past flag span c d) (n : Nat) :
    Yields (Grammar.body r closers n) d fun out d' => out.1 = [] ∧ closed out.2 d' := by
  cases n with
  | zero => exact .inl ⟨d, rfl⟩
  | succ n => exact h span c d hP n n

/-- A command of the smaller text and a statement of the body that begin with the same token. -/
theorem mirrors_bodyHere (hr : r.Repeat e r') (hclose : Closes e flag r' closers closed)
    {n m : Nat}
    (hmore : Mirrors (e.Beside flag) (commands r n) (body r' closers m) (e.Encloses closed))
    {t : Token} (ht : isCloser closers t = false) :
    Mirrors (e.Took flag) (push t >>= fun _ => commandsHere r n)
      (push (e.shift.move t) >>= fun _ => bodyHere r' closers m) (e.Encloses closed) := by
  have hopen : isCloser closers (e.shift.move t) = false := ht
  refine .upToRecord (push_peek t _) (push_next_push (if_neg (ne_true_of_eq_false hopen))) ?_
  refine .push (.bind (hr.repeats .statement) fun node => .endOfCommandOrEnd ?_ fun span => ?_)
  · refine .map hmore fun nodes _ out _ hout => ⟨?_, hout.2⟩
    exact congrArg (List.cons (e.shift.move node)) hout.1
  · -- The line feed behind the text has ended the statement: no command is left.
    intro c d hP a c' ha
    obtain ⟨nodes, c₁, hnodes, hpure⟩ := bind_eq_ok ha
    cases hpure
    cases commands_at_end hP.atEnd hnodes
    refine (hclose.body hP m).bind fun out d' hout => .of_ok rfl ⟨?_, hout.2⟩
    exact congrArg (List.cons (e.shift.move node)) hout.1

/-- What stands behind the terminators of the larger text goes on as `g`. It does with a token that
begins a statement what the smaller text does, and it closes the body at the end. -/
theorem mirrors_enclosed (hrefuse : Refuses (r .statement)) (htail : e.tail ≠ none) {n : Nat}
    {g : Unit → Parse (List Node × Token)}
    (hopen : ∀ t, opensNothing t = false →
      Mirrors (e.Took flag) (push t >>= fun _ => commandsHere r n)
        (push (e.shift.move t) >>= g) (e.Encloses closed))
    (hclose : ∀ span c d, e.Past flag span c d → ∀ limit,
      Yields (skipTerminators limit >>= g) d fun out d' => out.1 = [] ∧ closed out.2 d')
    (limit limit' : Nat) :
    Mirrors (e.Beside flag) (commandsAfter r limit n) (skipTerminators limit' >>= g)
      (e.Encloses closed) := by
  refine .skipTerminatorsOrEnd (fun t _ => ?_) (fun h => absurd h htail) fun span limit => ?_
  · cases hnothing : opensNothing t with
    | false => exact hopen t hnothing
    | true =>
      -- A larger text might stop here, but the smaller one has a statement to read and cannot.
      exact .fails (.upToRecord (hrefuse.bind t hnothing) (push_peek t _))
  · intro c d hP a c' ha
    cases commandsHere_at_end hP.atEnd ha
    exact hclose span c d hP limit

theorem mirrors_bodyAfter (hr : r.Repeat e r') (hrefuse : Refuses (r .statement))
    (htail : e.tail ≠ none) (hclosers : ∀ t, opensNothing t = false → isCloser closers t = false)
    (hclose : Closes e flag r' closers closed) {n m : Nat}
    (hmore : Mirrors (e.Beside flag) (commands r n) (body r' closers m) (e.Encloses closed))
    (limit limit' : Nat) :
    Mirrors (e.Beside flag) (commandsAfter r limit n) (bodyAfter r' closers limit' m)
      (e.Encloses closed) := by
  refine mirrors_enclosed hrefuse htail (fun t ht => ?_) (fun span c d hP limit => ?_) limit limit'
  · exact mirrors_bodyHere hr hclose hmore (hclosers t ht)
  · exact hclose span c d hP limit m

/-- The statements of a body in the larger text are the commands of the smaller one. -/
theorem mirrors_body (hr : r.Repeat e r') (hrefuse : Refuses (r .statement)) (htail : e.tail ≠ none)
    (hclosers : ∀ t, opensNothing t = false → isCloser closers t = false)
    (hclose : Closes e flag r' closers closed) (n m : Nat) :
    Mirrors (e.Beside flag) (commands r n) (body r' closers m) (e.Encloses closed) := by
  induction n generalizing m with
  | zero => exact .fails .exhausted
  | succ n ih =>
    cases m with
    | zero => exact .exhausted_right
    | succ m =>
      rw [commands_succ, body_succ]
      exact mirrors_bodyAfter hr hrefuse htail hclosers hclose (ih m) n m

end Bodies

/-! ## Bodies closed by `end` -/

section Ended

variable {e : Embedding} {flag : Bool} {r : Rules} {closers : List String}

/-- The body was closed by the `end` behind the line feed, with which the larger text ends. -/
structure Embedding.Ended (e : Embedding) (t : Token) (d : Cursor) : Prop where
  text : t.text = "end"
  source : d.source = e.source
  atEnd : AtEnd d.lexer
  last : d.last = ⟨(e.shift.move e.stop).next '\n', 3⟩

/-- The token behind the line feed is that `end`. -/
theorem Embedding.Past.next_end {span : Span} {c d : Cursor} (h : e.Past flag span c d)
    (htail : e.tail = some "end".toList) :
    ∃ t d', next d = .ok (some t) d' ∧ t.kind = .identifier ∧ d'.last = t.span ∧ e.Ended t d' := by
  have hrest : d.lexer.stream.rest = "end".toList :=
    Option.some.inj (h.behind.tail.symm.trans htail)
  have hfirst : Lexeme.firstToken? "end".toList = some (.bare .identifier "end" false, []) := by
    decide
  have hgap : Lexeme.gap "end".toList = [] := by decide
  rw [← hrest] at hfirst
  obtain ⟨lexeme, l, hsplit, -, hnext, hrest', hpushed, -⟩ := Lexer.next_of_split h.pushed hfirst
  rw [hrest, hgap, List.nil_append, List.append_nil] at hsplit
  rw [hrest, hgap, ← hsplit] at hnext
  refine ⟨_, _, next_of_some hnext, rfl, rfl, rfl, h.source.2, ⟨hpushed, ?_⟩, ?_⟩
  · rw [Cursor.took_lexer, hrest']
    rfl
  · rw [h.behind.position]
    rfl

/-- A closer that was given back closes the body. -/
theorem yields_bodyHere_of_closer {t : Token} (ht : isCloser closers t = true) {d : Cursor}
    (hd : d.last = t.span) (hended : e.Ended t d) (n : Nat) :
    Yields (push t >>= fun _ => bodyHere r closers n) d fun out d' =>
      out.1 = [] ∧ e.Ended out.2 d' := by
  have hrun : (push t >>= fun _ => bodyHere r closers n) d =
      .ok ([], t) ((d.gaveBack t).took t d.lexer) := by
    rw [bodyHere, push_next_apply]
    dsimp only
    rw [if_pos ht]
    rfl
  exact .of_ok hrun ⟨rfl, hended.text, hended.source, hended.atEnd, hd.symm.trans hended.last⟩

/-- The `end` comes behind any terminators that may be skipped. -/
theorem yields_ended {β : Type} {span : Span} {c d : Cursor} (hP : e.Past flag span c d)
    (htail : e.tail = some "end".toList) {g : Unit → Parse β} {Q : β → Cursor → Prop}
    (h : ∀ t d', t.kind = .identifier → d'.last = t.span → e.Ended t d' →
      Yields (push t >>= g) d' Q)
    (limit : Nat) : Yields (skipTerminators limit >>= g) d Q := by
  cases limit with
  | zero => exact .inl ⟨d, rfl⟩
  | succ limit =>
    obtain ⟨t, d', hnext, hkind, hlast, hended⟩ := hP.next_end htail
    rw [skipTerminators, skipWhile_succ_bind]
    refine .step hnext ?_
    dsimp only
    rw [isTerminator_of_identifier hkind]
    exact h t d' hkind hlast hended

theorem isCloser_end {t : Token} (hclosers : closers.contains "end" = true)
    (hkind : t.kind = .identifier) (htext : t.text = "end") : isCloser closers t = true := by
  unfold isCloser
  rw [hkind, htext, hclosers]
  rfl

theorem closes_end (htail : e.tail = some "end".toList)
    (hclosers : closers.contains "end" = true) : Closes e flag r closers e.Ended := by
  intro span c d hP limit n
  refine yields_ended hP htail (fun t d' hkind hlast hended => ?_) limit
  have hcloser := isCloser_end hclosers hkind hended.text
  exact yields_bodyHere_of_closer hcloser hlast hended n

/-- Also where the header may have a keyword of its own behind the terminators. -/
theorem yields_ended_keyword {keyword : String} (hkeyword : keyword ≠ "end")
    (htail : e.tail = some "end".toList) (hclosers : closers.contains "end" = true) {span : Span}
    {c d : Cursor} (hP : e.Past flag span c d) (limit n : Nat) :
    Yields
      (skipTerminators limit >>= fun _ => acceptKeyword keyword >>= fun _ => body r closers n) d
      fun out d' => out.1 = [] ∧ e.Ended out.2 d' := by
  refine yields_ended hP htail (fun t d' hkind hlast hended => ?_) limit
  have hcloser := isCloser_end hclosers hkind hended.text
  have hfits : t.isKeyword keyword = false := by
    unfold Token.isKeyword
    rw [hended.text, beq_eq_false_iff_ne.2 hkeyword.symm, Bool.and_false]
  refine (push_accept hfits _).yields fun taken passed => ?_
  rcases n with _ | _ | n
  · exact .inl ⟨_, rfl⟩
  · exact .inl ⟨_, rfl⟩
  · refine (push_skipWhile (isTerminator_of_identifier hkind) n _).yields fun taken passed => ?_
    exact yields_bodyHere_of_closer (d := { d' with taken, passed }) hcloser hlast
      ⟨hended.text, hended.source, hended.atEnd, hended.last⟩ _

variable {r' : Rules}

/-- A body behind terminators and a keyword of the header, if there is one. -/
theorem mirrors_body_keyword (hr : r.Repeat e r') (hrefuse : Refuses (r .statement))
    (htail : e.tail = some "end".toList) (hend : closers.contains "end" = true)
    (hclosers : ∀ text ∈ closers, text ∈ ["end", "else", "elsif", "then", "do"])
    {keyword : String} (hkeyword : keyword ∈ ["then", "do"]) (limit limit' n m : Nat) :
    Mirrors (e.Beside flag) (commandsAfter r limit n)
      (skipTerminators limit' >>= fun _ => acceptKeyword keyword >>= fun _ => body r' closers m)
      (e.Encloses e.Ended) := by
  have hsome : e.tail ≠ none := by
    rw [htail]
    exact Option.some_ne_none _
  have hclose : Closes e flag r' closers e.Ended := closes_end htail hend
  refine mirrors_enclosed hrefuse hsome (fun t ht => ?_) (fun span c d hP limit => ?_) limit limit'
  · have hfits : (e.shift.move t).isKeyword keyword = false :=
      isKeyword_of_opening ht (List.mem_of_mem_drop (i := 3) hkeyword)
    have hterminator : (e.shift.move t).isTerminator = false := isTerminator_of_opening ht
    refine .upToRecord (.refl _) (push_accept hfits _) ?_
    rcases m with _ | _ | m
    · exact fun _ _ _ _ _ _ => .inl ⟨_, rfl⟩
    · exact fun _ _ _ _ _ _ => .inl ⟨_, rfl⟩
    · refine .upToRecord (.refl _) (push_skipWhile hterminator m _) ?_
      refine mirrors_bodyHere hr hclose ?_ (isCloser_of_opening ht hclosers)
      exact mirrors_body hr hrefuse hsome (fun t ht => isCloser_of_opening ht hclosers) hclose n _
  · refine yields_ended_keyword ?_ htail hend hP limit m
    rintro rfl
    revert hkeyword
    decide

end Ended

end Spinel.Grammar
