import Spinel.Proofs.Source.Availability
import Spinel.Proofs.Token.Spelling

/-!
# How far lexemes reach

A token is made of characters that stand ahead (`Lexeme.ofChars_length_le`), and what is put behind
it does not change it if that starts with a space or a line feed (`Lexeme.settled_ofChars`). So a
text that reads as a token still does when a line feed and any text are put behind it
(`Lexeme.firstToken?_append`). Only a lone backslash at the very end would read differently, and
that is no token.

`Lexer.next_of_split` says where the next token stands.
-/

namespace Spinel

namespace Lexeme

/-! ## Lexemes are beginnings of the text ahead -/

theorem all_takeWhile (p : Char → Bool) (cs : List Char) : ∀ c ∈ cs.takeWhile p, p c = true :=
  List.all_eq_true.1 (List.all_takeWhile ..)

theorem identifier_starts (cs : List Char) : identifier cs <+: cs := by
  have hname : cs.takeWhile isNameChar <+: cs := List.takeWhile_prefix _
  unfold identifier
  dsimp only
  split
  · exact hname
  · next mark rest hdrop =>
    split
    · have hsplit := List.prefix_iff_eq_append.1 hname
      rw [hdrop] at hsplit
      exact ⟨rest, by rw [List.append_assoc]; exact hsplit⟩
    · exact hname

theorem operator?_starts {cs op : List Char} (h : operator? cs = some op) : op <+: cs := by
  unfold operator? at h
  split at h
  · cases h
    exact List.take_prefix _ _
  · split at h
    · split at h <;> cases h <;> exact List.take_prefix _ _
    · split at h
      · cases h
      · split at h <;> cases h
        exact ⟨_, rfl⟩

/-- What stands between quotes, and the text that it stands for. -/
inductive Contents (quote : Char) : List Char → List Char → Prop
  | nil : Contents quote [] []
  | plain {c : Char} {cs text : List Char} : c ≠ quote → c ≠ '\\' → Contents quote cs text →
      Contents quote (c :: cs) (c :: text)
  | escape {c : Char} {cs text : List Char} : Contents quote cs text →
      Contents quote ('\\' :: c :: cs) (escaped quote c ++ text)

section

variable {quote : Char} {cs body text : List Char} {n : Nat}

theorem Contents.length_le (h : Contents quote body text) : text.length ≤ body.length := by
  induction h with
  | nil => exact Nat.le_refl _
  | plain _ _ _ ih => exact Nat.succ_le_succ ih
  | @escape c _ _ _ ih =>
    have hescaped : (escaped quote c).length ≤ 2 := by
      unfold escaped
      split <;> (try split) <;> simp
    simp only [List.length_append, List.length_cons]
    omega

theorem Contents.quoted_append (hq : quote ≠ '\\') (h : Contents quote body text)
    (rest : List Char) : quoted quote (body ++ quote :: rest) = some (text, body.length + 1) := by
  induction h with
  | nil =>
    rw [List.nil_append, quoted, if_pos rfl]
    · rfl
    · exact fun _ _ heq => absurd heq hq
  | plain hne hslash _ ih =>
    rw [List.cons_append, quoted, if_neg hne, if_neg hslash, ih]
    · rfl
    · exact fun _ _ heq => absurd heq hslash
  | escape _ ih =>
    rw [List.cons_append, List.cons_append, quoted, ih]
    rfl

/-- A string that is closed has contents before its quote. -/
theorem exists_contents (hq : quote ≠ '\\') (h : quoted quote cs = some (text, n)) :
    ∃ body rest, cs = body ++ quote :: rest ∧ n = body.length + 1 ∧ Contents quote body text := by
  induction cs using quoted.induct quote generalizing text n with
  | case1 => cases h
  | case2 c cs ih =>
    rw [quoted, Option.map_eq_some_iff] at h
    obtain ⟨⟨inner, k⟩, hinner, heq⟩ := h
    cases heq
    obtain ⟨body, rest, rfl, rfl, hcontents⟩ := ih hinner
    exact ⟨'\\' :: c :: body, rest, rfl, rfl, .escape hcontents⟩
  | case3 cs _ =>
    rw [quoted, if_pos rfl] at h
    · cases h
      exact ⟨[], cs, rfl, rfl, .nil⟩
    · exact fun _ _ heq => absurd heq hq
  | case4 cs hlast hne =>
    rw [quoted, if_neg hne, if_pos rfl] at h
    · cases h
    · exact hlast
  | case5 c cs _ hne hslash ih =>
    rw [quoted, if_neg hne, if_neg hslash, Option.map_eq_some_iff] at h
    · obtain ⟨⟨inner, k⟩, hinner, heq⟩ := h
      cases heq
      obtain ⟨body, rest, rfl, rfl, hcontents⟩ := ih hinner
      exact ⟨c :: body, rest, rfl, rfl, .plain hne hslash hcontents⟩
    · exact fun _ _ heq => absurd heq hslash

/-- The characters up to the closing quote are contents that stand for the text. -/
theorem quoted_contents (hq : quote ≠ '\\') (h : quoted quote cs = some (text, n)) :
    n ≤ cs.length ∧ ∃ body, cs.take n = body ++ [quote] ∧ n = body.length + 1 ∧
      Contents quote body text := by
  obtain ⟨body, rest, rfl, rfl, hcontents⟩ := exists_contents hq h
  refine ⟨by simp, body, ?_, rfl, hcontents⟩
  rw [List.append_cons]
  exact List.take_left' (by simp)

/-- A closed string takes characters ahead, and no others decide where it ends. -/
theorem quoted_take (hq : quote ≠ '\\') (h : quoted quote cs = some (text, n)) :
    n ≤ cs.length ∧ ∀ more, quoted quote (cs.take n ++ more) = some (text, n) := by
  obtain ⟨hle, body, htake, rfl, hcontents⟩ := quoted_contents hq h
  refine ⟨hle, fun more => ?_⟩
  rw [htake, List.append_assoc]
  exact hcontents.quoted_append hq more

end

/-! ## A line feed or a space ends every lexeme -/

/-- A space or a line feed: no lexeme goes on over it, but for strings. -/
def Breaks (b : Char) : Prop := b = ' ' ∨ b = '\n'

theorem Breaks.isNameChar {b : Char} (hb : Breaks b) : isNameChar b = false := by
  rcases hb with rfl | rfl <;> decide

theorem Breaks.isNameStart {b : Char} (hb : Breaks b) : isNameStart b = false := by
  rcases hb with rfl | rfl <;> decide

theorem Breaks.isDigitOrBar {b : Char} (hb : Breaks b) : isDigitOrBar b = false := by
  rcases hb with rfl | rfl <;> decide

theorem Breaks.ne_point {b : Char} (hb : Breaks b) : b ≠ '.' := by
  rcases hb with rfl | rfl <;> decide

variable {b : Char}

theorem takeWhile_append_break {p : Char → Bool} (hp : p b = false) (cs q : List Char) :
    (cs ++ b :: q).takeWhile p = cs.takeWhile p := by
  rw [List.takeWhile_append]
  split
  · next hlen =>
    rw [List.takeWhile_cons_of_neg (by rw [hp]; decide), List.append_nil]
    exact ((List.takeWhile_prefix p).eq_of_length hlen).symm
  · rfl

theorem any_head?_append_break {p : Char → Bool} (hp : p b = false) (cs q : List Char) :
    (cs ++ b :: q).head?.any p = cs.head?.any p := by
  cases cs with
  | nil => exact hp
  | cons c cs => rfl

theorem identifier_append_break (hb : Breaks b) (cs q : List Char) :
    identifier (cs ++ b :: q) = identifier cs := by
  unfold identifier
  have hlen : (cs.takeWhile isNameChar).length ≤ cs.length :=
    (List.takeWhile_prefix _).length_le
  dsimp only
  rw [takeWhile_append_break hb.isNameChar, List.drop_append_of_le_length hlen]
  cases cs.drop (cs.takeWhile isNameChar).length with
  | nil => rcases hb with rfl | rfl <;> simp
  | cons mark rest => cases rest <;> rcases hb with rfl | rfl <;> simp

/-- Where texts of `n` characters without `b` are listed, a `b` behind the text makes no difference
to whether its first `n` characters are. -/
theorem take_append_break (ops : List (List Char)) (n : Nat)
    (hops : ∀ op ∈ ops, op.length = n ∧ b ∉ op) (cs q : List Char) :
    ((cs ++ b :: q).take n ∈ ops ↔ cs.take n ∈ ops) ∧ (cs.take n ∈ ops → n ≤ cs.length) := by
  have hlen : cs.take n ∈ ops → n ≤ cs.length := fun hmem => by
    have := (hops _ hmem).1
    rw [List.length_take] at this
    omega
  refine ⟨?_, hlen⟩
  by_cases hle : n ≤ cs.length
  · rw [List.take_append_of_le_length hle]
  · refine iff_of_false (fun hmem => (hops _ hmem).2 ?_) (mt hlen hle)
    obtain ⟨k, hk⟩ : ∃ k, n = cs.length + (k + 1) := ⟨n - cs.length - 1, by omega⟩
    rw [hk, List.take_length_add_append]
    exact List.mem_append_right _ List.mem_cons_self

theorem operator?_append_break (hb : Breaks b) {cs : List Char} (hcs : cs ≠ []) (q : List Char) :
    operator? (cs ++ b :: q) = operator? cs := by
  obtain ⟨hmem3, hlen3⟩ := take_append_break (b := b) operatorsOfThree 3
    (by rcases hb with rfl | rfl <;> decide) cs q
  obtain ⟨hmem2, hlen2⟩ := take_append_break (b := b) operatorsOfTwo 2
    (by rcases hb with rfl | rfl <;> decide) cs q
  unfold operator?
  by_cases h3 : cs.take 3 ∈ operatorsOfThree
  · rw [if_pos h3, if_pos (hmem3.2 h3), List.take_append_of_le_length (hlen3 h3)]
  rw [if_neg h3, if_neg (mt hmem3.1 h3)]
  by_cases h2 : cs.take 2 ∈ operatorsOfTwo
  · have hlen := hlen2 h2
    have hnext : ((cs ++ b :: q).drop 2).head?.any isNameChar =
        (cs.drop 2).head?.any isNameChar := by
      rw [List.drop_append_of_le_length hlen, any_head?_append_break hb.isNameChar]
    rw [if_pos h2, if_pos (hmem2.2 h2), hnext, List.take_append_of_le_length hlen,
      List.take_append_of_le_length (Nat.le_of_succ_le hlen)]
  rw [if_neg h2, if_neg (mt hmem2.1 h2)]
  cases cs with
  | nil => exact absurd rfl hcs
  | cons c cs => rfl

/-- If `f` reads a token off the text, it takes no more than stands there behind `opening`
characters, and a space or a line feed behind the text changes nothing. -/
def Settled (f : List Char → Lexeme) (opening : Nat) (cs : List Char) : Prop :=
  ∀ kind text, (f cs).reading = .token kind text →
    (f cs).length ≤ opening + cs.length ∧ ∀ b, Breaks b → ∀ q, f (cs ++ b :: q) = f cs

theorem settled_string {kind : TokenKind} {quote : Char} (hq : quote ≠ '\\') (opening : Nat)
    (body : List Char) : Settled (string kind quote opening) opening body := by
  intro _ _ h
  unfold string at h ⊢
  cases hbody : quoted quote body with
  | none => rw [hbody] at h; cases h
  | some r =>
    obtain ⟨text, n⟩ := r
    obtain ⟨hle, hmore⟩ := quoted_take hq hbody
    refine ⟨Nat.add_le_add_left hle opening, fun b _ q => ?_⟩
    have happend := hmore (body.drop n ++ b :: q)
    rw [← List.append_assoc, List.take_append_drop] at happend
    rw [happend]

theorem fraction_length_lt {cs : List Char} (h : fraction cs ≠ []) :
    (fraction cs).length < cs.length := by
  fun_cases fraction cs with
  | case1 d cs hd => exact Nat.lt_succ_of_le (List.takeWhile_prefix _).length_le
  | case2 d cs hd => simp [fraction, hd] at h
  | case3 cs hcs => simp [fraction] at h

theorem fraction_append_stop (hbar : isDigitOrBar b = false) (hpoint : b ≠ '.')
    (cs q : List Char) : fraction (cs ++ b :: q) = fraction cs := by
  have hdigit : b.isDigit = false := (Bool.or_eq_false_iff.1 hbar).1
  match cs with
  | [] => simp [fraction, hpoint]
  | [c] =>
    by_cases hc : c = '.'
    · subst hc
      simp [fraction, hdigit]
    · simp [fraction, hc]
  | c :: d :: cs =>
    by_cases hc : c = '.'
    · subst hc
      simp only [List.cons_append, fraction]
      rw [← List.cons_append, takeWhile_append_break hbar]
    · simp [fraction, hc]

/-- The kind, the digits and the length of a number. -/
def numberParts (cs : List Char) : TokenKind × List Char × Nat :=
  let whole := cs.takeWhile isDigitOrBar
  let part := fraction (cs.drop whole.length)
  if part.isEmpty then (.integer, whole.filter Char.isDigit, whole.length)
  else (.float, whole.filter Char.isDigit ++ '.' :: part.filter Char.isDigit,
    whole.length + 1 + part.length)

/-- The number with the given parts, before the text that follows it. -/
def numberBefore (parts : TokenKind × List Char × Nat) : List Char → Lexeme
  | c :: _ =>
    if isNameStart c then
      ⟨.malformed (.invalidNumber (String.ofList (parts.2.1 ++ [c]))) .last, parts.2.2 + 1,
        parts.2.2 + 1⟩
    else plain parts.1 parts.2.1 parts.2.2
  | [] => plain parts.1 parts.2.1 parts.2.2

theorem number_eq (cs : List Char) :
    number cs = numberBefore (numberParts cs) (cs.drop (numberParts cs).2.2) := rfl

theorem numberParts_length_le (cs : List Char) : (numberParts cs).2.2 ≤ cs.length := by
  have hwhole : (cs.takeWhile isDigitOrBar).length ≤ cs.length :=
    (List.takeWhile_prefix _).length_le
  unfold numberParts
  dsimp only
  split
  · exact hwhole
  · next hne =>
    have hpart := fraction_length_lt (mt List.isEmpty_iff.2 hne)
    rw [List.length_drop] at hpart
    dsimp only
    omega

theorem numberParts_append_stop (hbar : isDigitOrBar b = false) (hpoint : b ≠ '.')
    (cs q : List Char) : numberParts (cs ++ b :: q) = numberParts cs := by
  have hwhole : (cs.takeWhile isDigitOrBar).length ≤ cs.length :=
    (List.takeWhile_prefix _).length_le
  unfold numberParts
  simp only [takeWhile_append_break hbar, List.drop_append_of_le_length hwhole,
    fraction_append_stop hbar hpoint]

theorem numberBefore_of_end {cs : List Char} (h : cs.head?.any isNameStart = false)
    (parts : TokenKind × List Char × Nat) :
    numberBefore parts cs = plain parts.1 parts.2.1 parts.2.2 := by
  cases cs with
  | nil => rfl
  | cons c cs => exact if_neg (ne_true_of_eq_false h)

theorem end_of_numberBefore {cs : List Char} {parts : TokenKind × List Char × Nat}
    {kind : TokenKind} {text : String} (h : (numberBefore parts cs).reading = .token kind text) :
    cs.head?.any isNameStart = false := by
  cases cs with
  | nil => rfl
  | cons c cs =>
    refine eq_false_of_ne_true fun (hc : isNameStart c = true) => ?_
    rw [numberBefore, if_pos hc] at h
    cases h

theorem settled_number (cs : List Char) : Settled number 0 cs := by
  intro kind text h
  have hlen := numberParts_length_le cs
  rw [number_eq] at h ⊢
  have hend := end_of_numberBefore h
  rw [numberBefore_of_end hend]
  refine ⟨Nat.le_trans hlen (Nat.le_add_left _ _), fun b hb q => ?_⟩
  rw [number_eq, numberParts_append_stop hb.isDigitOrBar hb.ne_point,
    List.drop_append_of_le_length hlen,
    numberBefore_of_end (by rw [any_head?_append_break hb.isNameStart, hend])]

/-- The kind and the sigil of a variable. -/
def sigilOf (first : Char) (rest : List Char) : TokenKind × List Char :=
  if first = '$' then (.globalVar, [first])
  else if rest.head? = some '@' then (.classVar, [first, '@'])
  else (.instanceVar, [first])

/-- The variable with the given sigil and the name ahead, where `first` is the sigil's first
character. -/
def sigiledName (first : Char) (kind : TokenKind) (sigil name : List Char) : Lexeme :=
  if name.head?.any isNameStart then
    plain kind (sigil ++ name.takeWhile isNameChar) (sigil ++ name.takeWhile isNameChar).length
  else ⟨.malformed (.unexpectedChar first) .first, sigil.length, sigil.length⟩

theorem sigiled_eq (first : Char) (rest : List Char) :
    sigiled first rest = sigiledName first (sigilOf first rest).1 (sigilOf first rest).2
      ((first :: rest).drop (sigilOf first rest).2.length) := rfl

theorem head?_append_break {c : Char} (hc : c ≠ b) (cs q : List Char) :
    (cs ++ b :: q).head? = some c ↔ cs.head? = some c := by
  cases cs with
  | nil => simp [hc.symm]
  | cons d ds => rfl

theorem sigilOf_starts (first : Char) (rest : List Char) :
    (sigilOf first rest).2 <+: first :: rest := by
  unfold sigilOf
  split
  · exact ⟨rest, rfl⟩
  · split
    · next hat =>
      obtain ⟨more, rfl⟩ := List.head?_eq_some_iff.1 hat
      exact ⟨more, rfl⟩
    · exact ⟨rest, rfl⟩

theorem sigilOf_append_break (hb : Breaks b) (first : Char) (rest q : List Char) :
    sigilOf first (rest ++ b :: q) = sigilOf first rest := by
  have hat : '@' ≠ b := by rcases hb with rfl | rfl <;> decide
  unfold sigilOf
  simp only [head?_append_break hat]

theorem settled_sigiled (first : Char) (rest : List Char) : Settled (sigiled first) 1 rest := by
  intro kind text h
  have hlen := (sigilOf_starts first rest).length_le
  have happend : ∀ b, Breaks b → ∀ q, sigiled first (rest ++ b :: q) =
      sigiledName first (sigilOf first rest).1 (sigilOf first rest).2
        ((first :: rest).drop (sigilOf first rest).2.length ++ b :: q) := fun b hb q => by
    rw [sigiled_eq, sigilOf_append_break hb, ← List.cons_append,
      List.drop_append_of_le_length hlen]
  rw [sigiled_eq] at h ⊢
  generalize hname : (first :: rest).drop (sigilOf first rest).2.length = name at h happend ⊢
  have hnamelen : (sigilOf first rest).2.length + name.length = rest.length + 1 := by
    rw [← hname, List.length_drop]
    simp only [List.length_cons] at hlen ⊢
    omega
  unfold sigiledName at h happend ⊢
  split at h
  · next hc =>
    rw [if_pos hc]
    refine ⟨?_, fun b hb q => (happend b hb q).trans ?_⟩
    · have htake := (List.takeWhile_prefix isNameChar (l := name)).length_le
      simp only [plain, List.length_append] at hnamelen htake ⊢
      omega
    · rw [if_pos (by rw [any_head?_append_break hb.isNameStart, hc]),
        takeWhile_append_break hb.isNameChar]
  · cases h

theorem setterName_append_break (hb : Breaks b) (name cs q : List Char) :
    setterName name (cs ++ b :: q) = setterName name cs := by
  match cs with
  | [] => rcases hb with rfl | rfl <;> rfl
  | [c] =>
    by_cases hc : c = '='
    · subst hc
      rcases hb with rfl | rfl <;> rfl
    · simp [setterName, hc]
  | c :: d :: cs =>
    by_cases hc : c = '='
    · subst hc
      rfl
    · simp [setterName, hc]

theorem setterName_length_le (name cs : List Char) :
    (setterName name cs).length ≤ name.length + cs.length := by
  fun_cases setterName name cs with
  | case1 | case2 | case3 | case4 => simp; try omega

/-- A symbol of a name or of a setter. -/
def nameSymbol (cs : List Char) : Lexeme :=
  symbolOf (setterName (identifier cs) (cs.drop (identifier cs).length))

/-- A symbol of a variable, whose name starts with `c`. -/
def variableSymbol (c : Char) (rest : List Char) : Lexeme :=
  let sigil := (sigilOf c rest).2
  let name := ((c :: rest).drop sigil.length).takeWhile isNameChar
  if name.isEmpty then badSymbol (1 + sigil.length) else symbolOf (sigil ++ name)

/-- A symbol of an operator, or of the methods that read and write items. -/
def operatorSymbol (cs : List Char) : Lexeme :=
  match operator? cs with
  | some op => symbolOf op
  | none =>
    match cs with
    | '[' :: ']' :: '=' :: _ => symbolOf ['[', ']', '=']
    | '[' :: ']' :: _ => symbolOf ['[', ']']
    | '[' :: _ :: _ => badSymbol 3
    | '[' :: _ => badSymbol 2
    | _ => badSymbol 1

theorem symbol_cons {c : Char} (hcolon : c ≠ ':') (hquote : c ≠ '"') (rest : List Char) :
    symbol (c :: rest) =
      if isNameStart c then nameSymbol (c :: rest)
      else if c = '@' ∨ c = '$' then variableSymbol c rest
      else { operatorSymbol (c :: rest) with lookahead := 4 } := by
  rw [symbol]
  · split
    · rfl
    · split
      · next hsigil =>
        have heq : (if c = '@' ∧ rest.head? = some '@' then [c, '@'] else [c]) =
            (sigilOf c rest).2 := by
          rcases hsigil with rfl | rfl
          · by_cases hat : rest.head? = some '@' <;> simp [sigilOf, hat]
          · rfl
        rw [heq]
        rfl
      · rfl
  · exact fun h => hcolon h
  · exact fun h => hquote h

theorem settled_nameSymbol (cs : List Char) : Settled nameSymbol 1 cs := by
  intro kind text _
  have hlen := (identifier_starts cs).length_le
  have hname := setterName_length_le (identifier cs) (cs.drop (identifier cs).length)
  rw [List.length_drop] at hname
  refine ⟨?_, fun b hb q => ?_⟩
  · simp only [nameSymbol, symbolOf, plain]
    omega
  · unfold nameSymbol
    rw [identifier_append_break hb, List.drop_append_of_le_length hlen,
      setterName_append_break hb]

theorem settled_variableSymbol (c : Char) (rest : List Char) :
    Settled (variableSymbol c) 2 rest := by
  intro kind text h
  have hlen := (sigilOf_starts c rest).length_le
  have hname := (List.takeWhile_prefix isNameChar
    (l := (c :: rest).drop (sigilOf c rest).2.length)).length_le
  rw [List.length_drop] at hname
  unfold variableSymbol at h ⊢
  refine ⟨?_, fun b hb q => ?_⟩
  · dsimp only at h ⊢
    split
    · next hempty => rw [if_pos hempty] at h; cases h
    · simp only [symbolOf, plain, List.length_append, List.length_cons] at hlen hname ⊢
      omega
  · simp only [sigilOf_append_break hb, ← List.cons_append, List.drop_append_of_le_length hlen,
      takeWhile_append_break hb.isNameChar]

theorem settled_operatorSymbol {cs : List Char} (hcs : cs ≠ []) : Settled operatorSymbol 1 cs := by
  intro kind text h
  have happend : ∀ b, Breaks b → ∀ q, operator? (cs ++ b :: q) = operator? cs :=
    fun b hb => operator?_append_break hb hcs
  unfold operatorSymbol at h ⊢
  cases hop : operator? cs with
  | some op =>
    refine ⟨?_, fun b hb q => by rw [happend b hb, hop]⟩
    have := (operator?_starts hop).length_le
    simp only [symbolOf, plain]
    omega
  | none =>
    rw [hop] at h
    dsimp only at h ⊢
    split at h
    · refine ⟨?_, fun b hb q => by rw [happend b hb, hop]; rfl⟩
      simp only [symbolOf, plain, List.length_cons, List.length_nil]
      omega
    · next more hne =>
      refine ⟨?_, fun b hb q => ?_⟩
      · simp only [symbolOf, plain, List.length_cons, List.length_nil]
        omega
      · rw [happend b hb, hop]
        cases more with
        | nil => rcases hb with rfl | rfl <;> rfl
        | cons d more =>
          have hd : d ≠ '=' := fun heq => hne more (by rw [heq])
          simp [hd]
    all_goals cases h

theorem settled_symbol (cs : List Char) : Settled symbol 1 cs := by
  intro kind text h
  match cs with
  | [] => cases h
  | c :: rest =>
    by_cases hcolon : c = ':'
    · subst hcolon
      refine ⟨?_, fun _ _ _ => rfl⟩
      simp only [symbol, plain, List.length_cons]
      omega
    by_cases hquote : c = '"'
    · subst hquote
      obtain ⟨hlen, happend⟩ := settled_string (by decide) 2 rest kind text h
      refine ⟨?_, happend⟩
      rw [List.length_cons]
      exact Nat.le_trans hlen (by omega)
    simp only [List.cons_append, symbol_cons hcolon hquote] at h ⊢
    by_cases hname : isNameStart c = true
    · simp only [if_pos hname] at h ⊢
      exact settled_nameSymbol _ _ _ h
    simp only [if_neg hname] at h ⊢
    by_cases hsigil : c = '@' ∨ c = '$'
    · simp only [if_pos hsigil] at h ⊢
      obtain ⟨hlen, happend⟩ := settled_variableSymbol c rest _ _ h
      rw [List.length_cons]
      exact ⟨Nat.le_trans hlen (by omega), happend⟩
    · simp only [if_neg hsigil] at h ⊢
      obtain ⟨hlen, happend⟩ := settled_operatorSymbol (List.cons_ne_nil c rest) _ _ h
      refine ⟨hlen, fun b hb q => ?_⟩
      rw [← List.cons_append, happend b hb]

/-- A token takes characters that stand ahead, and a space or a line feed behind them changes
nothing. -/
theorem settled_ofChars (c : Char) (rest : List Char) : Settled (ofChars c) 1 rest := by
  intro kind text h
  unfold ofChars at h ⊢
  dsimp only at h ⊢
  by_cases hfeed : c = '\n'
  · simp only [if_pos hfeed]
    exact ⟨Nat.le_add_right 1 _, fun _ _ _ => trivial⟩
  simp only [if_neg hfeed] at h ⊢
  by_cases hquote : c = '"' ∨ c = '\''
  · simp only [if_pos hquote] at h ⊢
    exact settled_string (by rcases hquote with rfl | rfl <;> decide) 1 rest _ _ h
  simp only [if_neg hquote] at h ⊢
  by_cases hcolon : c = ':'
  · simp only [if_pos hcolon] at h ⊢
    exact settled_symbol rest _ _ h
  simp only [if_neg hcolon] at h ⊢
  by_cases hsigil : c = '@' ∨ c = '$'
  · simp only [if_pos hsigil] at h ⊢
    exact settled_sigiled c rest _ _ h
  simp only [if_neg hsigil] at h ⊢
  by_cases hdigit : c.isDigit = true
  · simp only [if_pos hdigit] at h ⊢
    obtain ⟨hlen, happend⟩ := settled_number (c :: rest) _ _ h
    rw [List.length_cons] at hlen
    exact ⟨by omega, happend⟩
  simp only [if_neg hdigit] at h ⊢
  by_cases hname : isNameStart c = true
  · simp only [if_pos hname, ← List.cons_append]
    have hlen := (identifier_starts (c :: rest)).length_le
    rw [List.length_cons] at hlen
    refine ⟨?_, fun b hb q => by rw [identifier_append_break hb]⟩
    simp only [plain]
    omega
  simp only [if_neg hname, ← List.cons_append] at h ⊢
  refine ⟨?_, fun b hb q => by rw [operator?_append_break hb (List.cons_ne_nil c rest)]⟩
  cases hop : operator? (c :: rest) with
  | some op =>
    have hlen := (operator?_starts hop).length_le
    rw [List.length_cons] at hlen
    simp only [plain]
    omega
  | none =>
    dsimp only
    split <;> simp only [plain] <;> omega

theorem ofChars_length_le {c : Char} {rest : List Char} {kind : TokenKind} {text : String}
    (h : (ofChars c rest).reading = .token kind text) :
    (ofChars c rest).length ≤ (c :: rest).length := by
  rw [List.length_cons, Nat.add_comm]
  exact (settled_ofChars c rest kind text h).1

/-! ## Blanks -/

theorem blanks_le (cs : List Char) (inComment : Bool) : blanks cs inComment ≤ cs.length := by
  fun_induction blanks cs inComment with
  | case1 => exact Nat.le_refl _
  | case2 cs ih => simp only [List.length_cons]; omega
  | case3 c cs _ _ ih => exact Nat.succ_le_succ ih
  | case4 cs _ _ ih => exact Nat.succ_le_succ ih
  | case5 | case6 => exact Nat.zero_le _
  | case7 c cs _ ih => exact Nat.succ_le_succ ih

/-- A line feed ends the blanks, unless a backslash stands before it. -/
theorem blanks_append_feed {cs : List Char} {inComment : Bool}
    (h : (cs.drop (blanks cs inComment)).head? ≠ some '\\') (q : List Char) :
    blanks (cs ++ '\n' :: q) inComment = blanks cs inComment := by
  fun_induction blanks cs inComment with
  | case1 b => cases b <;> rfl
  | case2 cs ih =>
    rw [List.cons_append, List.cons_append, blanks, ih h]
  | case3 c cs _ hblank ih =>
    rw [List.cons_append, blanks, if_pos hblank, ih h]
    rintro _ rfl -
    revert hblank
    decide
  | case4 cs _ hblank ih =>
    rw [List.cons_append, blanks, if_neg hblank, if_pos rfl, ih h]
    rintro _ hslash -
    revert hslash
    decide
  | case5 c cs _ hblank hhash =>
    rw [List.cons_append, blanks, if_neg hblank, if_neg hhash]
    rintro _ rfl -
    exact h rfl
  | case6 cs => rw [List.cons_append, blanks, if_pos rfl]
  | case7 c cs hfeed ih => rw [List.cons_append, blanks, if_neg hfeed, ih h]

/-- The blanks at the beginning of a text. -/
def gap (cs : List Char) : List Char := cs.take (blanks cs false)

/-- What follows a token's line changes neither the token nor the blanks before it. -/
theorem firstToken?_append {cs rest : List Char} {t : Token}
    (h : firstToken? cs = some (t, rest)) (q : List Char) :
    gap (cs ++ '\n' :: q) = gap cs ∧
      firstToken? (cs ++ '\n' :: q) = some (t, rest ++ '\n' :: q) := by
  obtain ⟨c, more, kind, text, hd, hr, rfl, rfl⟩ := firstToken?_eq_some.1 h
  have hslash : c ≠ '\\' := by
    rintro rfl
    have hbad : (ofChars '\\' more).reading = .malformed (.unexpectedChar '\\') .first := rfl
    rw [hbad] at hr
    cases hr
  have hblanks : blanks (cs ++ '\n' :: q) false = blanks cs false := by
    refine blanks_append_feed ?_ q
    rw [hd]
    exact fun heq => hslash (Option.some.inj heq)
  obtain ⟨hlen, happend⟩ := settled_ofChars c more kind text hr
  refine ⟨?_, firstToken?_eq_some.2 ⟨c, more ++ '\n' :: q, kind, text, ?_, ?_, ?_, ?_⟩⟩
  · unfold gap
    rw [hblanks, List.take_append_of_le_length (blanks_le cs false)]
  · rw [hblanks, List.drop_append_of_le_length (blanks_le cs false), hd, List.cons_append]
  · rw [happend '\n' (.inr rfl), hr]
  · rw [hblanks]
  · rw [happend '\n' (.inr rfl), ← List.cons_append,
      List.drop_append_of_le_length (ofChars_length_le hr)]

/-- Behind the last token of a text, a line feed is the next one. -/
theorem firstToken?_append_end {cs : List Char} (h : cs.drop (blanks cs false) = [])
    (q : List Char) :
    firstToken? (cs ++ '\n' :: q) = some (.bare .endOfLine "\n" (0 < cs.length), q) := by
  have hblanks : blanks (cs ++ '\n' :: q) false = blanks cs false :=
    blanks_append_feed (by rw [h]; nofun) q
  have hlen : blanks cs false = cs.length :=
    Nat.le_antisymm (blanks_le cs false) (List.drop_eq_nil_iff.1 h)
  refine firstToken?_eq_some.2 ⟨'\n', q, .endOfLine, "\n", ?_, rfl, ?_, rfl⟩
  · rw [hblanks, List.drop_append_of_le_length (blanks_le cs false), h, List.nil_append]
  · rw [hblanks, hlen]

end Lexeme

/-! ## Places of tokens -/

namespace Stream

@[simp] theorem demand_position (n : Nat) (s : Stream) : (s.demand n).position = s.position := by
  unfold demand
  split <;> rfl

theorem advance_position (n : Nat) (s : Stream) :
    (advance n s).position = s.position.advance (s.rest.take n) := by
  induction n generalizing s with
  | zero => rfl
  | succ n ih =>
    rw [advance, ih, step_rest]
    unfold step
    split
    · next h => simp [h]
    · next c cs h => simp [h]

end Stream

namespace Lexer

/-- A token starts where the stream stands, and the stream is behind it afterwards. -/
theorem scan_of_token {s : Stream} {c : Char} {cs : List Char} {kind : TokenKind} {text : String}
    (hs : s.rest = c :: cs) (hr : (Lexeme.ofChars c cs).reading = .token kind text)
    (spaced : Bool) :
    ∃ after, scan spaced s =
        (.ok (some ⟨kind, text, ⟨s.position, (Lexeme.ofChars c cs).length⟩, spaced⟩), after) ∧
      after.rest = (c :: cs).drop (Lexeme.ofChars c cs).length ∧
      after.position = s.position.advance ((c :: cs).take (Lexeme.ofChars c cs).length) := by
  have hlen := Lexeme.ofChars_length_le hr
  have hposition : ∀ n k, ((s.demand n).advance k).position =
      s.position.advance ((c :: cs).take k) := fun n k => by
    rw [Stream.advance_position, Stream.demand_position, Stream.demand_rest, hs]
  refine ⟨(s.demand (max (Lexeme.ofChars c cs).length (Lexeme.ofChars c cs).lookahead)).advance
    (Lexeme.ofChars c cs).length, ?_, ?_, hposition _ _⟩
  · unfold scan
    simp only [hs, hr, Span.between, hposition, Position.advance_offset, List.length_take,
      Nat.add_sub_cancel_left, Nat.min_eq_left hlen]
  · rw [Stream.advance_rest, Stream.demand_rest, hs]

/-- Without tokens given back, the next token stands behind the blanks ahead. -/
theorem next_of_split {l : Lexer} {t : Token} {rest : List Char} (hp : l.pushed = [])
    (h : Lexeme.firstToken? l.stream.rest = some (t, rest)) :
    ∃ lexeme l', l.stream.rest = Lexeme.gap l.stream.rest ++ (lexeme ++ rest) ∧ lexeme ≠ [] ∧
      l.next = (.ok (some (t.placed
        ⟨l.stream.position.advance (Lexeme.gap l.stream.rest), lexeme.length⟩)), l') ∧
      l'.stream.rest = rest ∧ l'.pushed = [] ∧
      l'.stream.position =
        (l.stream.position.advance (Lexeme.gap l.stream.rest)).advance lexeme := by
  obtain ⟨c, cs, kind, text, hd, hr, rfl, rfl⟩ := Lexeme.firstToken?_eq_some.1 h
  have hlen := Lexeme.ofChars_length_le hr
  have hpos := Lexeme.ofChars_length_pos hr
  have hposition : (skipBlanks l.stream).2.position =
      l.stream.position.advance (Lexeme.gap l.stream.rest) := by
    simp only [skipBlanks, Stream.advance_position, Stream.demand_position, Stream.demand_rest]
    rfl
  have hrest : (skipBlanks l.stream).2.rest = c :: cs := by
    simp only [skipBlanks, Stream.advance_rest, Stream.demand_rest, hd]
  obtain ⟨after, hscan, hafter, hplace⟩ := scan_of_token hrest hr (skipBlanks l.stream).1
  refine ⟨(c :: cs).take (Lexeme.ofChars c cs).length, { l with stream := after }, ?_, ?_, ?_,
    hafter, hp, ?_⟩
  · rw [List.take_append_drop, ← hd]
    exact (List.take_append_drop _ _).symm
  · rw [← List.length_pos_iff, List.length_take]
    omega
  · unfold next
    simp only [hp, hscan]
    rw [hposition, List.length_take, Nat.min_eq_left hlen]
    rfl
  · rw [hplace, hposition]

/-- Behind the last token the lexer moves to the end of the text. -/
theorem next_of_blanks {l : Lexer} (hp : l.pushed = [])
    (h : l.stream.rest.drop (Lexeme.blanks l.stream.rest false) = []) :
    ∃ l', l.next = (.ok none, l') ∧ l'.stream.rest = [] ∧ l'.pushed = [] ∧
      l'.stream.position = l.stream.position.advance l.stream.rest := by
  have htake : l.stream.rest.take (Lexeme.blanks l.stream.rest false) = l.stream.rest :=
    List.take_of_length_le (List.drop_eq_nil_iff.1 h)
  unfold next
  simp only [hp, skipBlanks, scan, Stream.advance_rest, Stream.demand_rest, h]
  refine ⟨_, rfl, ?_, rfl, ?_⟩
  · simp only [Stream.advance_rest, Stream.demand_rest, h]
  · simp only [Stream.advance_position, Stream.demand_position, Stream.demand_rest, htake]

/-- Without tokens given back, a text that goes on with no token is malformed. -/
theorem next_of_malformed {l : Lexer} (hp : l.pushed = [])
    (h : Lexeme.firstToken? l.stream.rest = none)
    (hmore : l.stream.rest.drop (Lexeme.blanks l.stream.rest false) ≠ []) :
    ∃ e l', l.next = (.error e, l') := by
  unfold Lexeme.firstToken? at h
  dsimp only at h
  split at h
  · next hd => exact absurd hd hmore
  · next c cs hd =>
    have hrest : (skipBlanks l.stream).2.rest = c :: cs := by
      simp only [skipBlanks, Stream.advance_rest, Stream.demand_rest, hd]
    split at h
    · cases h
    · next fault place hr =>
      unfold next scan
      simp only [hp, hrest, hr]
      cases place <;> exact ⟨_, _, rfl⟩

theorem firstToken?_of_next {l l' : Lexer} {t : Token} (hp : l.pushed = [])
    (h : l.next = (.ok (some t), l')) :
    ∃ first, Lexeme.firstToken? l.stream.rest = some first := by
  refine Option.ne_none_iff_exists'.1 fun hnone => ?_
  by_cases hend : l.stream.rest.drop (Lexeme.blanks l.stream.rest false) = []
  · obtain ⟨_, hnext, -, -⟩ := next_of_end hp hend
    cases hnext.symm.trans h
  · obtain ⟨_, _, hnext⟩ := next_of_malformed hp hnone hend
    cases hnext.symm.trans h

theorem drop_blanks_of_next {l l' : Lexer} (hp : l.pushed = []) (h : l.next = (.ok none, l')) :
    l.stream.rest.drop (Lexeme.blanks l.stream.rest false) = [] := by
  refine Classical.byContradiction fun hmore => ?_
  cases hfirst : Lexeme.firstToken? l.stream.rest with
  | none =>
    obtain ⟨_, _, hnext⟩ := next_of_malformed hp hfirst hmore
    cases hnext.symm.trans h
  | some first =>
    obtain ⟨_, _, hnext, -, -⟩ := next_of_firstToken? hp hfirst
    cases hnext.symm.trans h

/-- The tokens up to the end of the text are none, or the next one and those behind it. -/
theorem tokensUpTo_cases {n : Nat} {l : Lexer} {ts : List Token} (hp : l.pushed = [])
    (h : tokensUpTo (n + 1) l = (ts, none)) :
    (l.stream.rest.drop (Lexeme.blanks l.stream.rest false) = [] ∧ ts = []) ∨
      ∃ first t l' us, Lexeme.firstToken? l.stream.rest = some first ∧
        l.next = (.ok (some t), l') ∧ tokensUpTo n l' = (us, none) ∧ ts = t :: us := by
  unfold tokensUpTo at h
  split at h
  · next hnext => exact .inl ⟨drop_blanks_of_next hp hnext, (Prod.mk.inj h).1.symm⟩
  · cases h
  · next t l' hnext =>
    obtain ⟨first, hfirst⟩ := firstToken?_of_next hp hnext
    obtain ⟨hts, hnone⟩ := Prod.mk.inj h
    exact .inr ⟨first, t, l', _, hfirst, hnext, Prod.ext rfl hnone, hts.symm⟩

end Lexer

end Spinel
