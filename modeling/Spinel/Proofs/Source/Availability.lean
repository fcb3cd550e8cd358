import Spinel.Proofs.Token.Reading
import Spinel.Failure

/-!
# Texts that become available line by line

`s.full` is the stream `s` with all of its text available. The two differ in what they show of the
text, and they agree on every line that `s` has as a whole (`Stream.HasLine`). A stream that stands
where its position says and has whole lines only (`Stream.Proper`) stays so when it is read on, and
has the line of every character that was asked for.
-/

namespace Spinel

/-! ## Places -/

namespace Position

theorem advance_offset (p : Position) (cs : List Char) :
    (p.advance cs).offset = p.offset + cs.length := by
  induction cs generalizing p with
  | nil => rfl
  | cons c cs ih =>
    rw [advance_cons, ih, next_offset, List.length_cons]
    omega

theorem advance_line (p : Position) (cs : List Char) :
    (p.advance cs).line = p.line + .ofNat (cs.count '\n') := by
  induction cs generalizing p with
  | nil => exact (UInt32.add_zero _).symm
  | cons c cs ih =>
    rw [advance_cons, ih, List.count_cons]
    unfold next
    split
    · next h =>
      rw [if_pos (by simp [h]), UInt32.ofNat_add, UInt32.add_comm (.ofNat _), ← UInt32.add_assoc]
      rfl
    · next h => simp [h]

end Position

/-! ## Lines of a text and of its beginnings -/

namespace Stream

theorem lineLength_le (cs : List Char) : lineLength cs ≤ cs.length := by
  induction cs with
  | nil => exact Nat.le_refl _
  | cons c cs ih =>
    unfold lineLength
    split <;> simp only [List.length_cons] <;> omega

/-- The first line ends the text or ends with a line feed. -/
theorem lineLength_ends (cs : List Char) :
    lineLength cs = cs.length ∨ cs[lineLength cs - 1]? = some '\n' := by
  induction cs with
  | nil => exact .inl rfl
  | cons c cs ih =>
    unfold lineLength
    split
    · next h => exact .inr (by simp [h])
    · rcases ih with ih | ih
      · exact .inl (by rw [ih, List.length_cons])
      · refine .inr ?_
        have hne : cs ≠ [] := by rintro rfl; simp at ih
        obtain ⟨k, hk⟩ := Nat.exists_eq_succ_of_ne_zero (Nat.pos_iff_ne_zero.1 (lineLength_pos hne))
        rw [hk] at ih ⊢
        exact ih

theorem dropLines_succ_cons (n : Nat) (c : Char) (cs : List Char) :
    dropLines (n + 1) (c :: cs) = if c = '\n' then dropLines n cs else dropLines (n + 1) cs := by
  by_cases h : c = '\n' <;> simp [dropLines, h]

theorem firstLine_append {as : List Char} (h : '\n' ∈ as) (bs : List Char) :
    (as ++ bs).takeWhile (· ≠ '\n') = as.takeWhile (· ≠ '\n') := by
  induction as with
  | nil => cases h
  | cons c cs ih =>
    by_cases hc : c = '\n'
    · simp [hc]
    · have hmem : '\n' ∈ cs := (List.mem_cons.1 h).resolve_left fun h => hc h.symm
      simpa [hc] using ih hmem

/-- The rest of a text behind its first `n` line feeds, if they are not the last ones of its
beginning `as`. -/
theorem dropLines_append {n : Nat} {as : List Char} (h : n < as.count '\n') (bs : List Char) :
    ∃ cs, dropLines n as = some cs ∧ dropLines n (as ++ bs) = some (cs ++ bs) ∧ '\n' ∈ cs := by
  induction as generalizing n with
  | nil => cases h
  | cons c cs ih =>
    cases n with
    | zero => exact ⟨c :: cs, rfl, rfl, List.count_pos_iff.1 h⟩
    | succ n =>
      rw [List.cons_append, dropLines_succ_cons, dropLines_succ_cons]
      split
      · next hc => exact ih (by simpa [hc] using h)
      · next hc => exact ih (by simpa [hc] using h)

end Stream

namespace Failure

theorem afterLines_append {n : Nat} {as : List Char} (h : n < as.count '\n') (bs : List Char) :
    afterLines n (as ++ bs) = afterLines n as ++ bs ∧ '\n' ∈ afterLines n as := by
  induction as generalizing n with
  | nil => cases h
  | cons c cs ih =>
    cases n with
    | zero => exact ⟨rfl, List.count_pos_iff.1 h⟩
    | succ n =>
      rw [List.cons_append, afterLines, afterLines]
      split
      · next hc => exact ih (by simpa [hc] using h)
      · next hc => exact ih (by simpa [hc] using h)

theorem firstLine_append {as : List Char} (h : '\n' ∈ as) (bs : List Char) :
    firstLine (as ++ bs) = firstLine as := by
  induction as using firstLine.induct with
  | case1 => cases h
  | case2 => rfl
  | case3 => rfl
  | case4 c cs hfeed hreturn ih =>
    have hmem : '\n' ∈ cs := (List.mem_cons.1 h).resolve_left fun hc => hfeed hc.symm
    have happend : ∀ more, c = '\r' → cs ++ bs = '\n' :: more → False := by
      intro more hc hmore
      cases cs with
      | nil => cases hmem
      | cons d ds =>
        rw [List.cons_append, List.cons.injEq] at hmore
        exact hreturn ds hc (by rw [hmore.1])
    rw [List.cons_append, firstLine.eq_4 c (cs ++ bs) hfeed happend,
      firstLine.eq_4 c cs hfeed hreturn, ih hmem]

/-- A line is the same in a text and in a beginning of the text that has more lines. -/
theorem sourceLine_append {n : Nat} {as : List Char} (h : n < as.count '\n') (bs : List Char) :
    sourceLine (String.ofList (as ++ bs)) n = sourceLine (String.ofList as) n := by
  obtain ⟨happend, hmem⟩ := afterLines_append h bs
  unfold sourceLine
  rw [String.toList_ofList, String.toList_ofList, happend]
  cases hcs : afterLines n as with
  | nil => rw [hcs] at hmem; cases hmem
  | cons c cs =>
    rw [hcs] at hmem
    exact congrArg some (firstLine_append hmem bs)

end Failure

namespace Stream

variable {s t : Stream} {n : Nat}

/-! ## Streams with all of their text available -/

/-- The stream with all of its text available. -/
def full (s : Stream) : Stream := { s with horizon := s.whole.length }

/-- The line with a number is available up to its end. -/
def HasLine (s : Stream) (n : Nat) : Prop :=
  n < s.available.count '\n' ∨ s.whole.length ≤ s.horizon

/-- The cursor is where the position says, and the lines available are whole lines. -/
structure Proper (s : Stream) : Prop where
  placed : s.position = Position.start.advance s.before.reverse
  aligned : s.horizon = 0 ∨ s.whole.length ≤ s.horizon ∨ s.whole[s.horizon - 1]? = some '\n'

/-- The same text, with no less of it available. -/
structure Extends (s t : Stream) : Prop where
  whole : t.whole = s.whole
  horizon : s.horizon ≤ t.horizon

theorem Extends.refl (s : Stream) : s.Extends s := ⟨rfl, Nat.le_refl _⟩

theorem Extends.trans {u : Stream} (h : s.Extends t) (h' : t.Extends u) : s.Extends u :=
  ⟨h'.whole.trans h.whole, Nat.le_trans h.horizon h'.horizon⟩

theorem HasLine.extend (h : s.HasLine n) (he : s.Extends t) : t.HasLine n := by
  unfold HasLine available at h ⊢
  rw [he.whole]
  refine h.imp (fun h => Nat.lt_of_lt_of_le h ?_) (fun h => Nat.le_trans h he.horizon)
  exact (List.take_sublist_take_left he.horizon).count_le _

/-- What does not fit into a word is cut off, which leads to an earlier line. -/
theorem HasLine.word (h : s.HasLine n) : s.HasLine (UInt32.ofNat n).toNat := by
  have hle : (UInt32.ofNat n).toNat ≤ n := by
    rw [UInt32.toNat_ofNat']
    exact Nat.mod_le _ _
  exact h.imp_left (Nat.lt_of_le_of_lt hle)

theorem available_of_length_le (h : s.whole.length ≤ s.horizon) : s.available = s.whole :=
  List.take_of_length_le h

theorem full_available (s : Stream) : s.full.available = s.whole :=
  available_of_length_le (Nat.le_refl _)

/-- A line that is available is shown as in the whole text. -/
theorem full_lineText (h : s.HasLine n) : s.full.lineText n = s.lineText n := by
  unfold lineText
  rw [full_available]
  rcases h with h | h
  · obtain ⟨cs, hcs, hall, hmem⟩ := dropLines_append h (s.whole.drop s.horizon)
    have hwhole : s.available ++ s.whole.drop s.horizon = s.whole := List.take_append_drop _ _
    rw [← hwhole, hall, hcs, Option.map_some, Option.map_some, firstLine_append hmem]
  · rw [available_of_length_le h]

/-- A line that is available is quoted as from the whole text. -/
theorem sourceLine_availableText (h : s.HasLine n) :
    Failure.sourceLine s.availableText n = Failure.sourceLine (String.ofList s.whole) n := by
  unfold availableText
  rcases h with h | h
  · have hwhole : s.available ++ s.whole.drop s.horizon = s.whole := List.take_append_drop _ _
    rw [← Failure.sourceLine_append h (s.whole.drop s.horizon), hwhole]
  · rw [available_of_length_le h]

/-! ## Reading on -/

theorem Proper.offset_eq (h : s.Proper) : s.position.offset = s.before.length := by
  rw [h.placed, Position.advance_offset, List.length_reverse]
  exact Nat.zero_add _

theorem Proper.line_eq (h : s.Proper) : s.position.line = .ofNat (s.before.reverse.count '\n') := by
  rw [h.placed, Position.advance_line]
  exact UInt32.zero_add _

theorem length_whole (s : Stream) : s.whole.length = s.before.length + s.rest.length := by
  simp [whole]

theorem whole_step (s : Stream) : s.step.whole = s.whole := by
  unfold step
  split
  · rfl
  · next h => simp [whole, h]

theorem whole_advance (n : Nat) (s : Stream) : (advance n s).whole = s.whole := by
  induction n generalizing s with
  | zero => rfl
  | succ n ih => rw [advance, ih, whole_step]

theorem horizon_step (s : Stream) : s.step.horizon = s.horizon := by
  unfold step
  split <;> rfl

theorem horizon_advance (n : Nat) (s : Stream) : (advance n s).horizon = s.horizon := by
  induction n generalizing s with
  | zero => rfl
  | succ n ih => rw [advance, ih, horizon_step]

theorem before_advance (n : Nat) (s : Stream) :
    (advance n s).before = (s.rest.take n).reverse ++ s.before := by
  induction n generalizing s with
  | zero => rfl
  | succ n ih =>
    rw [advance, ih]
    unfold step
    split <;> simp [*]

theorem whole_demand (n : Nat) (s : Stream) : (s.demand n).whole = s.whole := by
  unfold demand
  split <;> rfl

theorem Proper.step (h : s.Proper) : s.step.Proper := by
  refine ⟨?_, by rw [whole_step, horizon_step]; exact h.aligned⟩
  unfold Stream.step
  split
  · exact h.placed
  · simp [h.placed, Position.advance_append]

theorem Proper.advance (h : s.Proper) (n : Nat) : (Stream.advance n s).Proper := by
  induction n generalizing s with
  | zero => exact h
  | succ n ih => exact ih h.step

/-- What is asked for becomes available, as far as there is text. -/
theorem Proper.le_horizon_demand (h : s.Proper) (n : Nat) :
    s.before.length + min n s.rest.length ≤ (s.demand n).horizon := by
  unfold demand
  rw [h.offset_eq]
  split
  · next hn => exact Nat.le_trans (Nat.add_le_add_left (Nat.min_le_left _ _) _) hn
  · refine Nat.le_trans ?_ (Nat.le_max_right _ _)
    rw [List.length_take]
    rcases Nat.eq_zero_or_pos (min n s.rest.length) with hmin | hmin
    · omega
    · have hline : 0 < lineLength (s.rest.drop (min n s.rest.length - 1)) :=
        lineLength_pos (by rw [Ne, List.drop_eq_nil_iff]; omega)
      omega

theorem Proper.demand (h : s.Proper) (n : Nat) : (s.demand n).Proper := by
  unfold Stream.demand
  split
  · exact h
  refine ⟨h.placed, ?_⟩
  dsimp only
  rw [h.offset_eq]
  generalize hahead : (s.rest.take n).length - 1 = ahead
  have hle : ahead ≤ s.rest.length := by rw [← hahead, List.length_take]; omega
  rcases Nat.le_total s.horizon (s.before.length + ahead + lineLength (s.rest.drop ahead))
    with hm | hm
  · rw [Nat.max_eq_right hm]
    rcases lineLength_ends (s.rest.drop ahead) with hends | hends
    · refine .inr (.inl ?_)
      rw [hends, List.length_drop]
      simp only [whole, List.length_append, List.length_reverse]
      omega
    · refine .inr (.inr ?_)
      have hpos : 0 < lineLength (s.rest.drop ahead) :=
        lineLength_pos fun hnil => by rw [hnil] at hends; cases hends
      change (s.before.reverse ++ s.rest)[_]? = _
      rw [List.getElem?_append_right (by rw [List.length_reverse]; omega), List.length_reverse,
        ← hends, List.getElem?_drop]
      congr 1
      omega
  · rw [Nat.max_eq_left hm]
    exact h.aligned

theorem full_demand (h : s.Proper) (n : Nat) : (s.demand n).full = s.full.demand n := by
  have hle : ∀ ahead ≤ s.rest.length,
      s.before.length + ahead + lineLength (s.rest.drop ahead) ≤ s.whole.length := by
    intro ahead hahead
    have := lineLength_le (s.rest.drop ahead)
    rw [length_whole]
    rw [List.length_drop] at this
    omega
  have hfull : s.full.demand n = s.full := by
    unfold Stream.demand
    split
    · rfl
    · refine congrArg (fun horizon => { s with horizon }) (Nat.max_eq_left ?_)
      refine Nat.le_trans (Nat.le_of_eq ?_) (hle ((s.rest.take n).length - 1) ?_)
      · rw [← h.offset_eq]; rfl
      · rw [List.length_take]; omega
  rw [hfull, full, whole_demand]
  unfold Stream.demand full
  split <;> rfl

theorem full_advance (n : Nat) (s : Stream) : (advance n s).full = advance n s.full := by
  induction n generalizing s with
  | zero => rfl
  | succ n ih =>
    have hstep : s.step.full = s.full.step := by
      unfold full
      rw [whole_step]
      unfold step
      split <;> next h => simp only [h]
    rw [advance, ih, hstep]
    rfl

/-- The line of an available character is available. -/
theorem Proper.hasLine (h : s.Proper) {k : Nat} (hk : k < s.horizon) :
    s.HasLine ((s.whole.take k).count '\n') := by
  rcases h.aligned with hzero | hall | hfeed
  · omega
  · exact .inr hall
  · refine .inl ?_
    have hsplit : s.available = s.whole.take (s.horizon - 1) ++ ['\n'] := by
      have hsucc : s.horizon - 1 + 1 = s.horizon := by omega
      rw [available, ← hsucc, List.take_add_one, hfeed]
      rfl
    rw [hsplit, List.count_append]
    have := (List.take_sublist_take_left (l := s.whole) (Nat.le_sub_one_of_lt hk)).count_le '\n'
    simp only [List.count_singleton_self]
    omega

theorem Proper.hasLine_demand (h : s.Proper) {n k : Nat} (hn : k < n) (hk : k < s.rest.length) :
    (s.demand n).HasLine (s.before.reverse.count '\n' + (s.rest.take k).count '\n') := by
  have hpre : s.whole.take (s.before.length + k) = s.before.reverse ++ s.rest.take k := by
    rw [whole, List.take_append, List.length_reverse, Nat.add_sub_cancel_left,
      List.take_of_length_le (by rw [List.length_reverse]; omega)]
  have hline := (h.demand n).hasLine (k := s.before.length + k) (by
    have := h.le_horizon_demand n
    omega)
  rwa [whole_demand, hpre, List.count_append] at hline

/-- Asking past the end makes all of the text available. -/
theorem Proper.horizon_demand_of_lt (h : s.Proper) (hn : s.rest.length < n) :
    (s.demand n).whole.length ≤ (s.demand n).horizon := by
  have := h.le_horizon_demand n
  rw [whole_demand, length_whole]
  omega

theorem extends_demand (n : Nat) (s : Stream) : s.Extends (s.demand n) := by
  refine ⟨whole_demand n s, ?_⟩
  unfold demand
  split
  · exact Nat.le_refl _
  · exact Nat.le_max_left _ _

theorem extends_advance (n : Nat) (s : Stream) : s.Extends (advance n s) :=
  ⟨whole_advance n s, Nat.le_of_eq (horizon_advance n s).symm⟩

end Stream

/-! ## The lexer -/

/-- The error points to a line that is available. -/
theorem SyntaxError.here_full {s : Stream} {p : Position} (h : s.HasLine p.line.toNat)
    (fault : SyntaxFault) : SyntaxError.here s.full p fault = .here s p fault :=
  congrArg (SyntaxError.mk p fault) (Stream.full_lineText h)

namespace Lexer

variable {l : Lexer}

/-- The lexer with all of its text available. -/
def full (l : Lexer) : Lexer := { l with stream := l.stream.full }

/-- What is known once the lexer gave a result: at the end all of the text is available, and else
the line of the token or of the error. -/
def Shows (s : Stream) : Except SyntaxError (Option Token) → Prop
  | .ok none => s.whole.length ≤ s.horizon
  | .ok (some t) => s.HasLine t.span.start.line.toNat
  | .error e => s.HasLine e.position.line.toNat

theorem skipBlanks_full {s : Stream} (h : s.Proper) :
    skipBlanks s.full = ((skipBlanks s).1, (skipBlanks s).2.full) := by
  unfold skipBlanks
  rw [Stream.full_advance, Stream.full_demand h]
  rfl

theorem skipBlanks_proper {s : Stream} (h : s.Proper) :
    (skipBlanks s).2.Proper ∧ s.Extends (skipBlanks s).2 ∧
      ((skipBlanks s).2.rest = [] →
        (skipBlanks s).2.whole.length ≤ (skipBlanks s).2.horizon) := by
  unfold skipBlanks
  refine ⟨(h.demand _).advance _,
    (Stream.extends_demand _ s).trans (Stream.extends_advance _ _), ?_⟩
  intro hrest
  rw [Stream.advance_rest, Stream.demand_rest, List.drop_eq_nil_iff] at hrest
  have := h.horizon_demand_of_lt (Nat.lt_succ_of_le hrest)
  rwa [Stream.whole_advance, Stream.horizon_advance]

/-- The lines of a lexeme's first character and of an error at its end are available. -/
theorem hasLine_lexeme {s : Stream} (h : s.Proper) {c : Char} {cs : List Char}
    (hcons : s.rest = c :: cs) {n : Nat} (hn : (Lexeme.ofChars c cs).length ≤ n) (hpos : 0 < n) :
    (s.demand n).HasLine s.position.line.toNat ∧
      ∀ fault, (Lexeme.ofChars c cs).reading = .malformed fault .last →
        (s.demand n).HasLine
          ((s.demand n).advance (Lexeme.ofChars c cs).length).position.line.toNat := by
  refine ⟨?_, fun fault hlast => ?_⟩
  · have hline := h.hasLine_demand hpos (k := 0) (by rw [hcons]; exact Nat.succ_pos _)
    rw [List.take_zero, List.count_nil, Nat.add_zero] at hline
    rw [h.line_eq]
    exact hline.word
  · obtain ⟨k, d, hlen, hd, hfeed⟩ := Lexeme.ofChars_last hlast
    rw [← hcons] at hd
    have hk : k < s.rest.length := (List.getElem?_eq_some_iff.1 hd).1
    have hline := h.hasLine_demand (n := n) (k := k) (by omega) hk
    have hbefore := ((h.demand n).advance (Lexeme.ofChars c cs).length).line_eq
    rw [Stream.before_advance, Stream.demand_rest, hlen, List.take_add_one, hd] at hbefore
    have hsame : (s.demand n).before = s.before := by
      unfold Stream.demand
      split <;> rfl
    simp only [Option.toList_some, List.reverse_append, List.reverse_reverse, hsame,
      List.count_append, List.count_singleton, beq_eq_false_iff_ne.2 hfeed] at hbefore
    rw [hlen, hbefore]
    simpa using hline.word

theorem scan_shows {s : Stream} (h : s.Proper) (hend : s.rest = [] → s.whole.length ≤ s.horizon)
    (spaced : Bool) :
    (scan spaced s).2.Proper ∧ s.Extends (scan spaced s).2 ∧
      Shows (scan spaced s).2 (scan spaced s).1 ∧
      scan spaced s.full = ((scan spaced s).1, (scan spaced s).2.full) := by
  unfold scan
  have hrest : s.full.rest = s.rest := rfl
  rw [hrest]
  split
  · next hnil => exact ⟨h, .refl s, hend hnil, rfl⟩
  · next c cs hcons =>
    have hpos := Lexeme.ofChars_looks c cs
    dsimp only
    generalize hlen : (Lexeme.ofChars c cs).length = len at hpos ⊢
    generalize hasked : max len (Lexeme.ofChars c cs).lookahead = n at hpos ⊢
    have hproper : ((s.demand n).advance len).Proper := (h.demand n).advance len
    have hadvance := Stream.extends_advance len (s.demand n)
    have hext := (Stream.extends_demand n s).trans hadvance
    obtain ⟨hfirst, hlast⟩ := hasLine_lexeme h hcons (n := n) (by omega) hpos
    rw [hlen] at hlast
    have hfull : (s.full.demand n).advance len = ((s.demand n).advance len).full := by
      rw [Stream.full_advance, Stream.full_demand h]
    rw [hfull]
    cases hr : (Lexeme.ofChars c cs).reading with
    | token kind text => exact ⟨hproper, hext, hfirst.extend hadvance, rfl⟩
    | malformed fault place =>
      cases place with
      | first =>
        have hline := hfirst.extend hadvance
        exact ⟨hproper, hext, hline,
          congrArg (fun e => (Except.error e, _)) (SyntaxError.here_full hline fault)⟩
      | last =>
        have hline := (hlast fault hr).extend hadvance
        exact ⟨hproper, hext, hline,
          congrArg (fun e => (Except.error e, _)) (SyntaxError.here_full hline fault)⟩

/-- The lexer stands on a proper stream, and the lines of the tokens given back are available. -/
structure Proper (l : Lexer) : Prop where
  stream : l.stream.Proper
  pushed : ∀ t ∈ l.pushed, l.stream.HasLine t.span.start.line.toNat

/-- The next token does not depend on how much of the text is available. -/
theorem Proper.next (h : l.Proper) :
    l.next.2.Proper ∧ l.stream.Extends l.next.2.stream ∧ Shows l.next.2.stream l.next.1 ∧
      l.full.next = (l.next.1, l.next.2.full) := by
  unfold Lexer.next
  have hpushed : l.full.pushed = l.pushed := rfl
  rw [hpushed]
  split
  · next t ts hp =>
    have hts := h.pushed
    rw [hp] at hts
    refine ⟨⟨h.stream, fun t ht => hts t (List.mem_cons_of_mem _ ht)⟩, .refl _, ?_, rfl⟩
    exact hts t List.mem_cons_self
  · next hp =>
    obtain ⟨hproper, hext, hend⟩ := skipBlanks_proper h.stream
    obtain ⟨hscan, hext', hshows, hfull⟩ := scan_shows hproper hend (skipBlanks l.stream).1
    refine ⟨⟨hscan, ?_⟩, hext.trans hext', hshows, ?_⟩
    · simp [hp]
    · have hblanks := skipBlanks_full h.stream
      simp only [full] at hblanks ⊢
      rw [hblanks, hfull]

end Lexer

end Spinel
