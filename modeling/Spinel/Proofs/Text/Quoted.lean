import Spinel.Proofs.Token.Spelling
import Spinel.Text.Quoted

/-!
# Quoted texts and symbols are read back

A text without control characters, other than those with an escape of their own, is read back from
its quoted form (`firstToken?_quoted`), and a symbol that is an ASCII name from its form without
quotes (`firstToken?_symbolText`).
-/

namespace Spinel.Text

/-! ## Texts -/

/-- Whether a character is no control character, or one that has an escape of its own. -/
def isShown (c : Char) : Bool :=
  !isControl c || c == '\n' || c == '\t' || c == '\r' || c == '\x1b'

/-- Whether the text has no control characters but line feeds, tabs, returns and escapes. -/
def isShowable (s : String) : Bool := s.toList.all isShown

/-- What a character of a quoted text reads as. The other control characters are written by their
numbers, and the letter and the digits of such a number stand for themselves. -/
def readBack (c : Char) : List Char := if isShown c then [c] else 'u' :: hexFour c.toNat

theorem isShown_of_isControl_eq_false {c : Char} (h : isControl c = false) : isShown c = true := by
  rw [isShown, h]
  rfl

theorem readBack_of_isShown {c : Char} (h : isShown c = true) : readBack c = [c] := if_pos h

theorem flatMap_readBack {cs : List Char} (h : ∀ c ∈ cs, isShown c = true) :
    cs.flatMap readBack = cs := by
  induction cs with
  | nil => rfl
  | cons c cs ih =>
    obtain ⟨hc, hcs⟩ := List.forall_mem_cons.1 h
    rw [List.flatMap_cons, readBack_of_isShown hc, ih hcs, List.singleton_append]

theorem hexDigit_plain (n : Nat) : hexDigit (n % 16) ≠ '"' ∧ hexDigit (n % 16) ≠ '\\' := by
  have hall : (List.range 16).all fun k => hexDigit k != '"' && hexDigit k != '\\' := by decide
  have hdigit := List.all_eq_true.1 hall _ (List.mem_range.2 (Nat.mod_lt n (by decide)))
  rwa [Bool.and_eq_true, bne_iff_ne, bne_iff_ne] at hdigit

/-- Characters that are neither quotes nor backslashes stand for themselves. -/
theorem quoted_append_plain {cs : List Char} (h : ∀ c ∈ cs, c ≠ '"' ∧ c ≠ '\\')
    (more : List Char) :
    Lexeme.quoted '"' (cs ++ more) =
      (Lexeme.quoted '"' more).map fun (text, n) => (cs ++ text, n + cs.length) := by
  induction cs with
  | nil => exact Option.map_id'.symm
  | cons c cs ih =>
    obtain ⟨⟨hquote, hslash⟩, hcs⟩ := List.forall_mem_cons.1 h
    rw [List.cons_append, Lexeme.quoted, if_neg hquote, if_neg hslash, ih hcs, Option.map_map]
    · rfl
    · exact fun d ds heq => absurd heq hslash

/-- What one character is written as reads as what is left of that character. -/
theorem quoted_quotedChar (c : Char) (next : Option Char) (more : List Char) :
    Lexeme.quoted '"' (quotedChar c next ++ more) =
      (Lexeme.quoted '"' more).map
        fun (text, n) => (readBack c ++ text, n + (quotedChar c next).length) := by
  unfold quotedChar
  split
  case h_7 =>
    split <;> rfl
  case h_8 hquote hslash hn ht hr he _ =>
    cases hcontrol : isControl c with
    | false =>
      rw [readBack_of_isShown (isShown_of_isControl_eq_false hcontrol)]
      exact quoted_append_plain (List.forall_mem_singleton.2 ⟨hquote, hslash⟩) more
    | true =>
      have hnumber : isShown c = false := by
        simp only [isShown, hcontrol, Bool.not_true, Bool.false_or, Bool.or_eq_false_iff,
          beq_eq_false_iff_ne]
        exact ⟨⟨⟨hn, ht⟩, hr⟩, he⟩
      have hdigits : ∀ d ∈ hexFour c.toNat, d ≠ '"' ∧ d ≠ '\\' := by
        simp only [hexFour, List.forall_mem_cons]
        exact ⟨hexDigit_plain _, hexDigit_plain _, hexDigit_plain _, hexDigit_plain _, nofun⟩
      have hreads : readBack c = 'u' :: hexFour c.toNat := if_neg (by rw [hnumber]; decide)
      rw [if_pos rfl, List.cons_append, List.cons_append, Lexeme.quoted,
        quoted_append_plain hdigits, Option.map_map, hreads]
      rfl
  all_goals rfl

theorem quoted_quotedBody (cs rest : List Char) :
    Lexeme.quoted '"' (quotedBody cs ++ '"' :: rest) =
      some (cs.flatMap readBack, (quotedBody cs).length + 1) := by
  induction cs with
  | nil => rfl
  | cons c cs ih =>
    rw [quotedBody, List.append_assoc, quoted_quotedChar, ih]
    simp only [Option.map_some, List.length_append, List.flatMap_cons]
    congr 2
    omega

/-- A quoted text is read as a string, whatever its characters are. -/
theorem firstToken?_quoted_readBack (s : String) (rest : List Char) :
    Lexeme.firstToken? ((quoted s).toList ++ rest) =
      some (.bare .string (String.ofList (s.toList.flatMap readBack)) false, rest) := by
  have hof : Lexeme.ofChars '"' (quotedBody s.toList ++ '"' :: rest) =
      Lexeme.plain .string (s.toList.flatMap readBack)
        (1 + ((quotedBody s.toList).length + 1)) := by
    simp [Lexeme.ofChars, Lexeme.string, quoted_quotedBody]
  have hchars : (quoted s).toList ++ rest = '"' :: (quotedBody s.toList ++ '"' :: rest) := by
    simp [quoted, quotedChars]
  rw [hchars, Lexeme.firstToken?_of_reading (Lexeme.blanks_eq_zero (by decide) _)
    (by rw [hof]; rfl), hof]
  simp [Lexeme.plain, Nat.add_comm 1]

theorem firstToken?_quoted {s : String} (h : isShowable s = true) (rest : List Char) :
    Lexeme.firstToken? ((quoted s).toList ++ rest) = some (.bare .string s false, rest) := by
  have hsame : s.toList.flatMap readBack = s.toList := flatMap_readBack (List.all_eq_true.1 h)
  rw [firstToken?_quoted_readBack, hsame, String.ofList_toList]

/-! ## Symbols -/

/-- Whether the text is a name of ASCII letters, digits and bars. -/
def isAsciiName (s : String) : Bool :=
  s.toList.head?.any Lexeme.isNameStart && s.toList.all Lexeme.isNameChar

theorem opensName_of_isNameStart {c : Char} (h : Lexeme.isNameStart c = true) :
    opensName c = true := by
  rw [Lexeme.isNameStart, Bool.or_eq_true, beq_iff_eq] at h
  rcases h with h | rfl
  · rw [Lexeme.isAlpha_iff_toNat] at h
    have hmem : CharSet.alphabetic.contains c = true := by
      unfold CharSet.contains CharSet.alphabetic
      rw [CharSet.memberFrom, if_neg (by omega), CharSet.memberFrom]
      rcases h with h | h
      · rw [if_pos (by omega)]
        rfl
      · rw [if_neg (by omega), CharSet.memberFrom, if_neg (by omega), CharSet.memberFrom,
          if_pos (by omega)]
        rfl
    rw [opensName, hmem, Bool.or_true]
  · rfl

theorem continuesName_of_isNameChar {c : Char} (h : Lexeme.isNameChar c = true) :
    continuesName c = true := by
  rw [continuesName, Bool.or_eq_true]
  rcases Lexeme.isNameChar_iff.1 h with h | h
  · exact .inl (opensName_of_isNameStart h)
  · refine .inr ?_
    rw [Lexeme.isDigit_iff_toNat] at h
    unfold CharSet.contains CharSet.numeric
    rw [CharSet.memberFrom, if_neg (by omega), CharSet.memberFrom, if_pos (by omega)]
    rfl

/-- An ASCII name needs no quotes as a symbol. -/
theorem isPlainSymbol_of_isAsciiName {s : String} (h : isAsciiName s = true) :
    isPlainSymbol s.toList = true := by
  cases hs : s.toList with
  | nil => simp [isAsciiName, hs] at h
  | cons c cs =>
    simp only [isAsciiName, hs, List.head?_cons, Option.any_some, Bool.and_eq_true,
      List.all_eq_true] at h
    obtain ⟨hstart, hall⟩ := h
    have hsigil : withoutSigil (c :: cs) = c :: cs := by
      unfold withoutSigil
      split
      · next heq => cases heq; exact absurd hstart (by decide)
      · next heq => cases heq; exact absurd hstart (by decide)
      · next heq => cases heq; exact absurd hstart (by decide)
      · rfl
    have hmark : withoutMark (c :: cs) = c :: cs := by
      unfold withoutMark
      split
      · next d hd =>
        have hd := hall d (List.mem_of_getLast? hd)
        rw [if_neg]
        simp only [Bool.or_eq_true, decide_eq_true_eq]
        rintro ((rfl | rfl) | rfl) <;> exact absurd hd (by decide)
      · rfl
    rw [isPlainSymbol, hsigil, hmark, isName, opensName_of_isNameStart hstart]
    have hrest : cs.all continuesName = true := List.all_eq_true.2 fun d hd =>
      continuesName_of_isNameChar (hall d (List.mem_cons_of_mem _ hd))
    rw [hrest]
    simp

/-- The characters do not continue a symbol before them. -/
def EndsSymbol (rest : List Char) : Prop :=
  Lexeme.EndsName rest ∧ ∀ name, Lexeme.setterName name rest = name

theorem firstToken?_symbolText {s : String} (h : isAsciiName s = true) {rest : List Char}
    (hrest : EndsSymbol rest) :
    Lexeme.firstToken? ((symbolText s).toList ++ rest) = some (.bare .symbol s false, rest) := by
  have hchars : (symbolText s).toList ++ rest = ':' :: (s.toList ++ rest) := by
    simp [symbolText, isPlainSymbol_of_isAsciiName h]
  have hof : Lexeme.ofChars ':' (s.toList ++ rest) = Lexeme.symbolOf s.toList := by
    cases hs : s.toList with
    | nil => simp [isAsciiName, hs] at h
    | cons c cs =>
      simp only [isAsciiName, hs, List.head?_cons, Option.any_some, Bool.and_eq_true,
        List.all_eq_true] at h
      obtain ⟨hstart, hall⟩ := h
      have hid : Lexeme.identifier (c :: (cs ++ rest)) = c :: cs :=
        Lexeme.identifier_append hall hrest.1
      have hdrop : (c :: (cs ++ rest)).drop (c :: cs).length = rest := by simp
      have hne : c ≠ ':' ∧ c ≠ '"' := by
        constructor <;> (rintro rfl; exact absurd hstart (by decide))
      have hsymbol : Lexeme.symbol (c :: (cs ++ rest)) = Lexeme.symbolOf (c :: cs) := by
        unfold Lexeme.symbol
        split
        · next heq => cases heq
        · next heq => cases heq; exact absurd rfl hne.1
        · next heq => cases heq; exact absurd rfl hne.2
        · next heq =>
          cases heq
          simp only [hstart, if_true, hid, hdrop, hrest.2]
      exact hsymbol
  rw [hchars, Lexeme.firstToken?_of_reading (Lexeme.blanks_eq_zero (by decide) _)
    (by rw [hof]; rfl), hof]
  simp [Lexeme.symbolOf, Lexeme.plain]

end Spinel.Text
