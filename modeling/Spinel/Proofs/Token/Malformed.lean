import Mathlib.Control.Monad.Basic
import Spinel.Proofs.Token.Tiling

/-!
# Where errors of the lexer point

A text that begins with a malformed lexeme has a character that makes it so: the last one of its
shortest malformed beginning (`Lexeme.Spoilt`). For every fault but one this is the first character
already, because quotes, colons and sigils are malformed on their own. A number is sound up to the
letter that spoils it.

An error should point to the first character of the malformed lexeme or to the one that spoils it.
It does, unless the fault is an invalid number: then it points behind the letter, which may be
behind the text (`Lexer.error_points_into_token_iff`).
-/

namespace Spinel

namespace Lexeme

/-! ## The character that spoils a lexeme -/

/-- Whether a text begins with a malformed lexeme. -/
def isMalformed : List Char → Bool
  | [] => false
  | c :: rest =>
    match (ofChars c rest).reading with
    | .malformed .. => true
    | .token .. => false

/-- The text begins with a malformed lexeme, and no beginning of the text does that stops before its
character number `k`, but the one that ends with it does. -/
structure Spoilt (cs : List Char) (k : Nat) : Prop where
  malformed : isMalformed cs = true
  within : k < cs.length
  sound : ∀ j ≤ k, isMalformed (cs.take j) = false
  culprit : isMalformed (cs.take (k + 1)) = true

variable {c : Char} {cs rest : List Char} {fault : SyntaxFault} {place : LexemeEnd}

theorem isMalformed_of_malformed (h : (ofChars c rest).reading = .malformed fault place) :
    isMalformed (c :: rest) = true := by
  simp only [isMalformed, h]

theorem isMalformed_of_token {kind : TokenKind} {text : String}
    (h : (ofChars c rest).reading = .token kind text) : isMalformed (c :: rest) = false := by
  simp only [isMalformed, h]

theorem Spoilt.of_first (h : isMalformed (c :: rest) = true) (hfirst : isMalformed [c] = true) :
    Spoilt (c :: rest) 0 where
  malformed := h
  within := Nat.succ_pos _
  sound j hj := by
    rw [Nat.le_zero.1 hj]
    rfl
  culprit := hfirst

/-! ## Numbers -/

theorem fraction_of_ne_nil (h : fraction cs ≠ []) :
    ∃ d more, cs = '.' :: d :: more ∧ fraction cs = (d :: more).takeWhile isDigitOrBar := by
  fun_cases fraction cs with
  | case1 d more hd => exact ⟨d, more, rfl, rfl⟩
  | case2 d more hd => exact absurd (if_neg hd) h
  | case3 => exact absurd (by simp [fraction]) h

theorem isDigitOrBar_of_behind {x : Char}
    (h : (cs.dropWhile isDigitOrBar).head? = some x) : isDigitOrBar x = false := by
  have hhead := List.head?_dropWhile_not isDigitOrBar cs
  rw [h] at hhead
  exact hhead

/-- A number is made of digits, bars and a point, and neither a digit nor a bar stands behind it. -/
theorem numberParts_split (cs : List Char) :
    ∃ taken rest, cs = taken ++ rest ∧ taken.length = (numberParts cs).2.2 ∧
      (∀ x ∈ taken, isDigitOrBar x = true ∨ x = '.') ∧
      ∀ x, rest.head? = some x → isDigitOrBar x = false := by
  have hsplit : cs.takeWhile isDigitOrBar ++ cs.dropWhile isDigitOrBar = cs :=
    List.takeWhile_append_dropWhile
  have hdrop : cs.drop (cs.takeWhile isDigitOrBar).length = cs.dropWhile isDigitOrBar :=
    (congrArg (List.drop _) hsplit.symm).trans List.drop_left
  have hwhole : ∀ {ds : List Char}, ∀ x ∈ ds.takeWhile isDigitOrBar, isDigitOrBar x = true :=
    List.all_eq_true.1 List.all_takeWhile
  unfold numberParts
  dsimp only
  rw [hdrop]
  by_cases hpart : (fraction (cs.dropWhile isDigitOrBar)).isEmpty = true
  · rw [if_pos hpart]
    exact ⟨_, _, hsplit.symm, rfl, fun x hx => .inl (hwhole x hx),
      fun x hx => isDigitOrBar_of_behind hx⟩
  · obtain ⟨d, more, hpoint, hfraction⟩ := fraction_of_ne_nil (mt List.isEmpty_iff.2 hpart)
    rw [if_neg hpart, hfraction]
    refine ⟨cs.takeWhile isDigitOrBar ++ '.' :: (d :: more).takeWhile isDigitOrBar,
      (d :: more).dropWhile isDigitOrBar, ?_, ?_, ?_, fun x hx => isDigitOrBar_of_behind hx⟩
    · rw [List.append_assoc, List.cons_append, List.takeWhile_append_dropWhile, ← hpoint, hsplit]
    · rw [List.length_append, List.length_cons]
      dsimp only
      omega
    · intro x hx
      rcases List.mem_append.1 hx with hx | hx
      · exact .inl (hwhole x hx)
      · exact (List.mem_cons.1 hx).elim .inr fun hx => .inl (hwhole x hx)

/-- Digits, bars and points with nothing else behind them are not spoilt. -/
theorem number_of_digits (h : ∀ x ∈ cs, isDigitOrBar x = true ∨ x = '.') :
    ∃ kind text, (number cs).reading = .token kind text := by
  obtain ⟨taken, rest, rfl, hlength, -, hrest⟩ := numberParts_split cs
  have hend : rest.head?.any isNameStart = false := by
    cases hhead : rest.head? with
    | none => rfl
    | some x =>
      have hx := h x (List.mem_append_right _ (List.mem_of_head? hhead))
      rw [hrest x hhead] at hx
      rw [hx.resolve_left (by decide)]
      rfl
  rw [number_eq, ← hlength, List.drop_left, numberBefore_of_end hend]
  exact ⟨_, _, rfl⟩

/-- A malformed number goes on with a letter, which spoils it. -/
theorem number_spoilt (h : (number cs).reading = .malformed fault place) :
    ∃ taken x more, cs = taken ++ x :: more ∧ (number cs).length = taken.length + 1 ∧
      (∀ y ∈ taken, isDigitOrBar y = true ∨ y = '.') ∧
      (∃ shown, fault = .invalidNumber shown) ∧ place = .last ∧
      (number (taken ++ [x])).reading = .malformed fault place := by
  obtain ⟨taken, rest, rfl, hlength, htaken, hrest⟩ := numberParts_split cs
  have hnumber : number (taken ++ rest) = numberBefore (numberParts (taken ++ rest)) rest := by
    rw [number_eq, ← hlength, List.drop_left]
  rw [hnumber] at h ⊢
  cases rest with
  | nil => cases h
  | cons x more =>
    have hbar := hrest x rfl
    have hx : isNameStart x = true := by
      refine eq_true_of_ne_false fun hx => ?_
      rw [numberBefore_of_end (show (x :: more).head?.any isNameStart = false from hx)] at h
      cases h
    have hpoint : x ≠ '.' := by
      rintro rfl
      cases hx
    rw [numberBefore, if_pos hx] at h ⊢
    have hshort : number (taken ++ [x]) =
        numberBefore (numberParts (taken ++ x :: more)) [x] := by
      have hparts : numberParts (taken ++ x :: more) = numberParts (taken ++ [x]) :=
        (numberParts_append_stop hbar hpoint taken more).trans
          (numberParts_append_stop hbar hpoint taken []).symm
      rw [number_eq, ← hparts, ← hlength, List.drop_left]
    refine ⟨taken, x, more, rfl, by rw [hlength], htaken, ?_⟩
    rw [hshort, numberBefore, if_pos hx, ← h]
    cases h
    exact ⟨⟨_, rfl⟩, rfl, rfl⟩

/-! ## All lexemes -/

theorem operator?_singleton (h : operator? (c :: rest) = none) : operator? [c] = none := by
  have hthree : [c].take 3 ∉ operatorsOfThree := by simp [operatorsOfThree]
  have htwo : [c].take 2 ∉ operatorsOfTwo := by simp [operatorsOfTwo]
  have hone : c ∉ operatorsOfOne := by
    intro hmem
    unfold operator? at h
    split at h
    · cases h
    split at h
    · split at h <;> cases h
    · exact Option.some_ne_none _ ((if_pos hmem).symm.trans h)
  rw [operator?, if_neg hthree, if_neg htwo]
  exact if_neg hone

/-- A malformed lexeme that is no number is malformed because of its first character. -/
theorem malformed_of_first (h : (ofChars c rest).reading = .malformed fault place)
    (hdigit : ¬c.isDigit = true) :
    isMalformed [c] = true ∧ place = .first ∧ ∀ shown, fault ≠ .invalidNumber shown := by
  unfold ofChars at h
  dsimp only at h
  by_cases hfeed : c = '\n'
  · rw [if_pos hfeed] at h
    cases h
  rw [if_neg hfeed] at h
  by_cases hquote : c = '"' ∨ c = '\''
  · rw [if_pos hquote] at h
    obtain ⟨rfl, rfl⟩ := string_malformed h
    exact ⟨by rcases hquote with rfl | rfl <;> rfl, rfl, nofun⟩
  rw [if_neg hquote] at h
  by_cases hcolon : c = ':'
  · rw [if_pos hcolon] at h
    obtain ⟨hfault, rfl⟩ := symbol_malformed h
    refine ⟨by rw [hcolon]; rfl, rfl, ?_⟩
    rcases hfault with rfl | rfl <;> nofun
  rw [if_neg hcolon] at h
  by_cases hsigil : c = '@' ∨ c = '$'
  · rw [if_pos hsigil] at h
    obtain ⟨rfl, rfl⟩ := sigiled_malformed h
    exact ⟨by rcases hsigil with rfl | rfl <;> rfl, rfl, nofun⟩
  rw [if_neg hsigil, if_neg hdigit] at h
  by_cases hname : isNameStart c = true
  · rw [if_pos hname] at h
    cases h
  rw [if_neg hname] at h
  cases hop : operator? (c :: rest) with
  | some op =>
    rw [hop] at h
    cases h
  | none =>
    rw [hop] at h
    dsimp only at h
    by_cases hseparator : c ∈ separators
    · rw [if_pos hseparator] at h
      cases h
    · rw [if_neg hseparator] at h
      cases h
      have halone : (ofChars c []).reading = .malformed (.unexpectedChar c) .first := by
        unfold ofChars
        simp only [if_neg hfeed, if_neg hquote, if_neg hcolon, if_neg hsigil, if_neg hdigit,
          if_neg hname, operator?_singleton hop, if_neg hseparator]
      exact ⟨isMalformed_of_malformed halone, rfl, nofun⟩

/-- A number is sound up to the letter that spoils it. -/
theorem spoilt_number (hdigit : c.isDigit = true)
    (h : (ofChars c rest).reading = .malformed fault place) :
    ∃ k, Spoilt (c :: rest) k ∧ (ofChars c rest).length = k + 1 ∧
      (∃ shown, fault = .invalidNumber shown) ∧ place = .last := by
  have hmalformed := isMalformed_of_malformed h
  rw [ofChars_of_isDigit hdigit] at h ⊢
  obtain ⟨taken, x, more, hcs, hlength, htaken, hfault, hplace, hshort⟩ := number_spoilt h
  have hsound : ∀ first, (∀ y ∈ c :: first, isDigitOrBar y = true ∨ y = '.') →
      isMalformed (c :: first) = false := fun first hfirst => by
    obtain ⟨kind, text, htoken⟩ := number_of_digits hfirst
    rw [← ofChars_of_isDigit hdigit] at htoken
    exact isMalformed_of_token htoken
  cases taken with
  | nil =>
    -- The first character is a digit, and a digit does not spoil a number.
    obtain ⟨rfl, -⟩ := List.cons.inj hcs
    have halone := hsound [] (List.forall_mem_singleton.2 (.inl (isDigitOrBar_of_isDigit hdigit)))
    rw [List.nil_append, ← ofChars_of_isDigit hdigit] at hshort
    rw [isMalformed_of_malformed hshort] at halone
    cases halone
  | cons d first =>
    rw [List.cons_append] at hcs
    obtain ⟨rfl, rfl⟩ := List.cons.inj hcs
    refine ⟨(c :: first).length, ⟨hmalformed, ?_, fun j hj => ?_, ?_⟩, hlength, hfault, hplace⟩
    · simp only [List.length_cons, List.length_append]
      omega
    · cases j with
      | zero => rfl
      | succ j =>
        have hj : j ≤ first.length := Nat.le_of_succ_le_succ hj
        rw [List.take_succ_cons, List.take_append_of_le_length hj]
        exact hsound _ fun y hy => htaken y (List.mem_of_mem_take (i := j + 1) hy)
    · rw [List.cons_append, ← ofChars_of_isDigit hdigit] at hshort
      rw [← List.cons_append, List.take_length_add_append 1]
      exact isMalformed_of_malformed hshort

/-- A malformed lexeme has a character that spoils it. The lexeme ends with that character if its
fault is told at its end, which is so exactly for numbers. -/
theorem exists_spoilt (h : (ofChars c rest).reading = .malformed fault place) :
    ∃ k, Spoilt (c :: rest) k ∧
      (place = .first ∧ (∀ shown, fault ≠ .invalidNumber shown) ∨
        place = .last ∧ (∃ shown, fault = .invalidNumber shown) ∧
          (ofChars c rest).length = k + 1) := by
  by_cases hdigit : c.isDigit = true
  · obtain ⟨k, hspoilt, hlength, hfault, hplace⟩ := spoilt_number hdigit h
    exact ⟨k, hspoilt, .inr ⟨hplace, hfault, hlength⟩⟩
  · obtain ⟨hfirst, hplace, hfault⟩ := malformed_of_first h hdigit
    exact ⟨0, .of_first (isMalformed_of_malformed h) hfirst, .inl ⟨hplace, hfault⟩⟩

/-! ## Blanks -/

/-- Behind the blanks ahead there are no blanks. -/
theorem blanks_behind (cs : List Char) : blanks (cs.drop (blanks cs false)) false = 0 := by
  generalize hb : false = inComment
  fun_induction blanks cs inComment with
  | case1 => rfl
  | case2 cs ih => exact ih rfl
  | case3 c cs _ hblank ih => exact ih rfl
  | case4 cs =>
    rcases (blanks_comment cs).2 with hend | hfeed
    · rw [List.drop_succ_cons, hend]
      rfl
    · obtain ⟨more, hmore⟩ := List.head?_eq_some_iff.1 hfeed
      rw [List.drop_succ_cons, hmore]
      rfl
  | case5 c cs hslash hblank hhash =>
    rw [List.drop_zero, blanks, if_neg hblank, if_neg hhash]
    exact hslash
  | case6 | case7 => cases hb

end Lexeme

/-! ## The lexer -/

namespace Lexer

/-- The lexers that come about by reading on from the beginning of a stream, past errors too, and by
giving tokens back. -/
inductive ReachedFrom (s : Stream) : Lexer → Prop
  | start : ReachedFrom s ⟨s, []⟩
  | next {l : Lexer} : ReachedFrom s l → ReachedFrom s l.next.2
  | push {l : Lexer} (t : Token) : ReachedFrom s l → ReachedFrom s (l.push t)

variable {s : Stream} {l : Lexer} {e : SyntaxError}

theorem next_stream (h : l.stream.Proper) :
    l.next.2.stream.Proper ∧ l.next.2.stream.whole = l.stream.whole := by
  unfold next
  split
  · exact ⟨h, rfl⟩
  · obtain ⟨hproper, hext, hend⟩ := skipBlanks_proper h
    obtain ⟨hscan, hext', -⟩ := scan_shows hproper hend (skipBlanks l.stream).1
    exact ⟨hscan, (hext.trans hext').whole⟩

theorem ReachedFrom.stream (hl : ReachedFrom s l) (h : s.Proper) :
    l.stream.Proper ∧ l.stream.whole = s.whole := by
  induction hl with
  | start => exact ⟨h, rfl⟩
  | next _ ih =>
    obtain ⟨hproper, hwhole⟩ := next_stream ih.1
    exact ⟨hproper, hwhole.trans ih.2⟩
  | push _ _ ih => exact ih

/-- An error is about a malformed lexeme behind the blanks ahead, and points to one of its ends. -/
theorem malformed_of_error (h : l.next.1 = .error e) :
    ∃ c rest place, l.stream.rest.drop (Lexeme.blanks l.stream.rest false) = c :: rest ∧
      (Lexeme.ofChars c rest).reading = .malformed e.fault place ∧
      (place = .first → e.position = l.stream.position.advance (Lexeme.gap l.stream.rest)) ∧
      (place = .last → e.position = l.stream.position.advance (Lexeme.gap l.stream.rest ++
        (c :: rest).take (Lexeme.ofChars c rest).length)) := by
  unfold next at h
  split at h
  · cases h
  simp only [skipBlanks, scan, Stream.advance_rest, Stream.demand_rest] at h
  cases hrest : l.stream.rest.drop (Lexeme.blanks l.stream.rest false) with
  | nil =>
    rw [hrest] at h
    cases h
  | cons c rest =>
    simp only [hrest] at h
    cases hreading : (Lexeme.ofChars c rest).reading with
    | token kind text =>
      rw [hreading] at h
      cases h
    | malformed fault place =>
      simp only [hreading] at h
      cases place with
      | first =>
        cases h
        refine ⟨c, rest, .first, rfl, hreading, fun _ => ?_, fun hlast => (by cases hlast)⟩
        simp only [SyntaxError.here, Stream.advance_position, Stream.demand_position,
          Stream.demand_rest]
        rfl
      | last =>
        cases h
        refine ⟨c, rest, .last, rfl, hreading, fun hfirst => (by cases hfirst), fun _ => ?_⟩
        simp only [SyntaxError.here, Stream.advance_position, Stream.demand_position,
          Stream.demand_rest, Stream.advance_rest, hrest, Position.advance_append]
        rfl

/-- Read from the offset `prev` on, the text has a malformed lexeme at the offset `start`, behind a
gap that no blank continues, and the character number `k` of the lexeme spoils it. -/
structure Stumbles (text : List Char) (prev start k : Nat) : Prop where
  behind : prev ≤ start
  gap : Gap (text.drop start) ((text.take start).drop prev)
  opens : Lexeme.blanks (text.drop start) false = 0
  spoilt : Lexeme.Spoilt (text.drop start) k

/-- An error is about a malformed lexeme behind the gap ahead. It points to the first character of
the lexeme, or behind the character that spoils it if that is a letter behind a number. -/
theorem stumbles_of_error (hproper : l.stream.Proper) (h : l.next.1 = .error e) :
    ∃ start k, Stumbles l.stream.whole l.stream.position.offset start k ∧
      ((∀ shown, e.fault ≠ .invalidNumber shown) ∧
          e.position = .after (l.stream.whole.take start) ∨
        (∃ shown, e.fault = .invalidNumber shown) ∧
          e.position = .after (l.stream.whole.take (start + k + 1))) := by
  obtain ⟨c, rest, place, hdrop, hreading, hfirst, hlast⟩ := malformed_of_error h
  obtain ⟨k, hspoilt, hends⟩ := Lexeme.exists_spoilt hreading
  have hgap := Lexeme.gap_isGap l.stream.rest
  have hblanks := Lexeme.blanks_behind l.stream.rest
  have hahead : Lexeme.gap l.stream.rest ++ c :: rest = l.stream.rest := by
    rw [← hdrop]
    exact List.take_append_drop _ _
  have hplace : l.stream.position = .after l.stream.before.reverse :=
    hproper.placed.trans (Position.after_advance [] _)
  have hoffset : l.stream.position.offset = l.stream.before.reverse.length := by
    rw [hplace]
    rfl
  rw [hplace, Position.after_advance] at hfirst hlast
  rw [hdrop] at hgap hblanks
  rw [hoffset, Stream.whole, ← hahead, ← List.append_assoc]
  generalize Lexeme.gap l.stream.rest = gap at *
  generalize l.stream.before.reverse = before at *
  have hstart : (before ++ gap ++ c :: rest).drop (before ++ gap).length = c :: rest :=
    List.drop_left
  refine ⟨(before ++ gap).length, k, ⟨?_, ?_, ?_, ?_⟩, ?_⟩
  · rw [List.length_append]
    omega
  · rw [hstart, List.take_left, List.drop_left]
    exact hgap
  · rw [hstart]
    exact hblanks
  · rw [hstart]
    exact hspoilt
  rcases hends with ⟨hplace, hfault⟩ | ⟨hplace, hfault, hcount⟩
  · refine .inl ⟨hfault, ?_⟩
    rw [List.take_left]
    exact hfirst hplace
  · refine .inr ⟨hfault, ?_⟩
    rw [Nat.add_assoc, List.take_length_add_append, ← hcount, List.append_assoc]
    exact hlast hplace

end Lexer

/-! ## Places of characters -/

namespace Position

/-- The place of the character number `k` of a text. -/
def IsOf (p : Position) (text : List Char) (k : Nat) : Prop :=
  k < text.length ∧ p = .after (text.take k)

variable {p : Position} {text : List Char} {k : Nat}

theorem offset_of_eq_after (hk : k ≤ text.length) (h : p = .after (text.take k)) :
    p.offset = k := by
  rw [h, after, List.length_take, Nat.min_eq_left hk]

theorem IsOf.offset_eq (h : p.IsOf text k) : p.offset = k :=
  offset_of_eq_after (Nat.le_of_lt h.1) h.2

end Position

namespace Lexer

variable {s : Stream} {l : Lexer} {e : SyntaxError}

/-- An error points to the first character of the malformed lexeme ahead or to the one that spoils
it, unless the lexeme is a number that a letter spoils: then it points behind the letter. Its line
and its column are those of its offset in any case, as far as words hold them. -/
theorem error_points_into_token_iff (text : String) (hs : s = .ofText text ∨ s = .ofReader text)
    (hl : l.ReachedFrom s) (h : l.next.1 = .error e) :
    ∃ start k, Stumbles text.toList l.stream.position.offset start k ∧
      (e.position.IsOf text.toList start ∨ e.position.IsOf text.toList (start + k) ↔
        ∀ shown, e.fault ≠ .invalidNumber shown) ∧
      (∀ shown, e.fault = .invalidNumber shown →
        e.position = .after (text.toList.take (start + k + 1))) ∧
      let before := text.toList.take e.position.offset
      e.position = .after before ∧ (e.position.Tells before ↔
        before.count '\n' < UInt32.size ∧ (Position.lastLine before).length < UInt32.size) := by
  have hstart : s.Proper ∧ s.whole = text.toList := by
    rcases hs with rfl | rfl
    · exact ⟨⟨rfl, .inr (.inl (Nat.le_refl _))⟩, rfl⟩
    · exact ⟨⟨rfl, .inl rfl⟩, rfl⟩
  obtain ⟨hproper, hwhole⟩ := hl.stream hstart.1
  obtain ⟨start, k, hstumbles, hends⟩ := stumbles_of_error hproper h
  rw [hwhole, hstart.2] at hstumbles hends
  refine ⟨start, k, hstumbles, ?_⟩
  have hlt := hstumbles.spoilt.within
  rw [List.length_drop] at hlt
  rcases hends with ⟨hfault, hposition⟩ | ⟨⟨shown, hfault⟩, hposition⟩
  · have hfirst : e.position.IsOf text.toList start := ⟨by omega, hposition⟩
    refine ⟨iff_of_true (.inl hfirst) hfault, fun shown hnot => absurd hnot (hfault shown), ?_⟩
    rw [hfirst.offset_eq]
    exact ⟨hposition, Position.tells_iff_of_eq_after hposition⟩
  · have hoffset := Position.offset_of_eq_after (by omega) hposition
    refine ⟨iff_of_false ?_ fun hnot => hnot shown hfault, fun _ _ => hposition, ?_⟩
    · rintro (hfirst | hspoils)
      · have hsame := hfirst.offset_eq
        omega
      · have hsame := hspoils.offset_eq
        omega
    · rw [hoffset]
      exact ⟨hposition, Position.tells_iff_of_eq_after hposition⟩

/-- A string that is not closed, behind a name and a token that was given back, and a number that
goes on with a letter. -/
theorem error_points_into_token_samples :
    (∃ start k, Stumbles "say 'hi\n12_3.4e5".toList 3 start k ∧
      (Position.IsOf ⟨4, 0, 4⟩ "say 'hi\n12_3.4e5".toList start ∨
        Position.IsOf ⟨4, 0, 4⟩ "say 'hi\n12_3.4e5".toList (start + k))) ∧
    ∃ start k, Stumbles " 12_3.4e5".toList 0 start k ∧
      Position.after (" 12_3.4e5".toList.take (start + k + 1)) = ⟨8, 0, 8⟩ := by
  let name : Lexer := ⟨.ofReader "say 'hi\n12_3.4e5", []⟩
  have hstring : ((name.next.2.push default).next.2).next.1 =
      .error ⟨⟨4, 0, 4⟩, .unterminatedString, some "say 'hi"⟩ := by decide
  have hnumber : (⟨.ofText " 12_3.4e5", []⟩ : Lexer).next.1 =
      .error ⟨⟨8, 0, 8⟩, .invalidNumber "123.4e", some " 12_3.4e5"⟩ := by decide
  obtain ⟨start, k, hstumbles, hpoints, -⟩ :=
    error_points_into_token_iff "say 'hi\n12_3.4e5" (.inr rfl)
      (.next (.push default (.next .start))) hstring
  obtain ⟨start', k', hstumbles', -, hbehind, -⟩ :=
    error_points_into_token_iff " 12_3.4e5" (.inl rfl) .start hnumber
  exact ⟨⟨start, k, hstumbles, hpoints.2 nofun⟩, start', k', hstumbles', (hbehind _ rfl).symm⟩

/-- At the end of a text, the error about a number points to no character of it. -/
theorem error_behind_text :
    ∃ e, (⟨.ofText "12a", []⟩ : Lexer).next.1 = .error e ∧
      ∀ k, ¬e.position.IsOf "12a".toList k := by
  refine ⟨⟨⟨3, 0, 3⟩, .invalidNumber "12a", some "12a"⟩, by decide, fun k hk => ?_⟩
  have hlt : k < 3 := hk.1
  have hoffset : 3 = k := hk.offset_eq
  omega

end Lexer

end Spinel
