import Spinel.Proofs.Text.Quoted
import Spinel.Proofs.Token.Contents

/-!
# Signs before variables

A sign right before a variable should be an operator and the variable its operand. The lexer takes
the longest operator, and a sign with an at sign behind it is one, the name of the method for the
unary sign; it is cut back to the sign only if a name follows (`Lexeme.operator?_sign`). So a sign
stands for itself before instance variables and global variables. Before a class variable the
second at sign is no name: the first one goes to the sign, and an instance variable is left over
(`Lexer.sign_before_variable_iff`).
-/

namespace Spinel

/-- What the name of a variable begins with. -/
inductive Sigil where
  | instanceVar
  | classVar
  | globalVar
deriving DecidableEq

namespace Sigil

def text : Sigil → String
  | .instanceVar => "@"
  | .classVar => "@@"
  | .globalVar => "$"

def kind : Sigil → TokenKind
  | .instanceVar => .instanceVar
  | .classVar => .classVar
  | .globalVar => .globalVar

end Sigil

namespace Lexeme

/-! ## Words -/

/-- A letter or a bar, and any letters, digits and bars behind it. -/
def IsWord (cs : List Char) : Prop :=
  cs.head?.any isNameStart = true ∧ ∀ c ∈ cs, isNameChar c = true

theorem isAsciiName_iff {s : String} : Text.isAsciiName s = true ↔ IsWord s.toList := by
  rw [Text.isAsciiName, Bool.and_eq_true, List.all_eq_true]
  rfl

/-- A word does not begin with a character that no name begins with. -/
theorem IsWord.head?_ne {cs : List Char} (h : IsWord cs) {c : Char} (hc : isNameStart c = false) :
    cs.head? ≠ some c := by
  intro hhead
  have hstart := h.1
  rw [hhead, Option.any_some, hc] at hstart
  cases hstart

/-! ## Variables -/

theorem sigilOf_text (sigil : Sigil) {cs : List Char} (hat : cs.head? ≠ some '@') :
    ∃ first rest, sigil.text.toList ++ cs = first :: rest ∧ (first = '@' ∨ first = '$') ∧
      sigilOf first rest = (sigil.kind, sigil.text.toList) := by
  cases sigil with
  | instanceVar => exact ⟨'@', cs, rfl, .inl rfl, by simp only [sigilOf, hat]; rfl⟩
  | classVar => exact ⟨'@', '@' :: cs, rfl, .inl rfl, rfl⟩
  | globalVar => exact ⟨'$', cs, rfl, .inr rfl, rfl⟩

theorem ofChars_of_sigil {c : Char} (h : c = '@' ∨ c = '$') (rest : List Char) :
    ofChars c rest = sigiled c rest := by
  rcases h with rfl | rfl <;> rfl

/-- A sigil and a word read as a variable, up to a character that is no part of a name. -/
theorem firstToken?_variable (sigil : Sigil) {cs : List Char} (hcs : IsWord cs) (rest : List Char)
    (hrest : ∀ c, rest.head? = some c → isNameChar c = false) :
    firstToken? (sigil.text.toList ++ cs ++ rest) =
      some (.bare sigil.kind (String.ofList (sigil.text.toList ++ cs)) false, rest) := by
  have hhead : (cs ++ rest).head? = cs.head? := by
    cases cs with
    | nil => exact absurd hcs.1 (by decide)
    | cons c cs => rfl
  have hat : (cs ++ rest).head? ≠ some '@' := hhead ▸ hcs.head?_ne (by decide)
  obtain ⟨first, more, htext, hfirst, hsigil⟩ := sigilOf_text sigil hat
  have hname : (cs ++ rest).takeWhile isNameChar = cs := takeWhile_append_stop hcs.2 hrest
  have hof : ofChars first more = plain sigil.kind (sigil.text.toList ++ cs)
      (sigil.text.toList ++ cs).length := by
    rw [ofChars_of_sigil hfirst, sigiled_eq, hsigil, ← htext, List.drop_left, sigiledName, hname,
      if_pos (by rw [hhead]; exact hcs.1)]
  have hblank : opensBlank first = false := by rcases hfirst with rfl | rfl <;> decide
  rw [List.append_assoc, htext, firstToken?_of_reading (blanks_eq_zero hblank _) (by rw [hof]; rfl),
    hof, ← htext, ← List.append_assoc]
  simp only [plain, List.drop_left]

/-! ## Signs -/

/-- A sign and the at sign behind it are one operator, unless a name follows. -/
theorem operator?_sign {sign : Char} (hsign : sign = '+' ∨ sign = '-') (cs : List Char) :
    operator? (sign :: '@' :: cs) =
      if cs.head?.any isNameChar then some [sign] else some [sign, '@'] := by
  cases cs with
  | nil => rcases hsign with rfl | rfl <;> rfl
  | cons c cs =>
    have hthree : [sign, '@', c] ∉ operatorsOfThree := by
      rcases hsign with rfl | rfl <;> simp [operatorsOfThree]
    have htwo : [sign, '@'] ∈ operatorsOfTwo ∧ isSignName [sign, '@'] = true := by
      rcases hsign with rfl | rfl <;> decide
    have htake : (sign :: '@' :: c :: cs).take 3 = [sign, '@', c] := rfl
    have htake' : (sign :: '@' :: c :: cs).take 2 = [sign, '@'] := rfl
    rw [operator?, htake, htake', if_neg hthree, if_pos htwo.1, htwo.2, Bool.true_and]
    rfl

theorem operator?_sign_dollar {sign : Char} (hsign : sign = '+' ∨ sign = '-') (cs : List Char) :
    operator? (sign :: '$' :: cs) = some [sign] := by
  have hthree : (sign :: '$' :: cs).take 3 ∉ operatorsOfThree := by
    rcases hsign with rfl | rfl <;> simp [operatorsOfThree]
  have htwo : (sign :: '$' :: cs).take 2 ∉ operatorsOfTwo := by
    rcases hsign with rfl | rfl <;> simp [operatorsOfTwo]
  rw [operator?, if_neg hthree, if_neg htwo]
  exact if_pos (by rcases hsign with rfl | rfl <;> decide)

end Lexeme

namespace Lexer

open Lexeme

variable {sign : Char} {cs : List Char}

/-- The operator that a sign before a variable is read as, and the variable behind it. -/
theorem readsAs_sign (hsign : sign = '+' ∨ sign = '-') (op : List Char) (sigil : Sigil)
    (hcs : IsWord cs)
    (hop : operator? (sign :: (op ++ (sigil.text.toList ++ cs))) = some (sign :: op)) :
    ReadsAs (sign :: (op ++ (sigil.text.toList ++ cs)))
      [(.operator, String.ofList (sign :: op)),
        (sigil.kind, String.ofList (sigil.text.toList ++ cs))] := by
  have hopens : opensSign sign = true := by rcases hsign with rfl | rfl <;> decide
  refine (readsAs_of_firstToken? (firstToken?_operator sign op hopens hop)).2 ⟨rfl, ?_⟩
  have hvariable := firstToken?_variable sigil hcs [] nofun
  rw [List.append_nil] at hvariable
  exact (readsAs_of_firstToken? hvariable).2 ⟨rfl, readsAs_nil.2 rfl⟩

/-- The sign, if there is no second at sign behind the first. -/
theorem readsAs_sign_variable (hsign : sign = '+' ∨ sign = '-') {sigil : Sigil}
    (hsigil : sigil ≠ .classVar) (hcs : IsWord cs) :
    ReadsAs (sign :: (sigil.text.toList ++ cs)) [(.operator, String.ofList [sign]),
      (sigil.kind, String.ofList (sigil.text.toList ++ cs))] := by
  refine readsAs_sign hsign [] sigil hcs ?_
  cases sigil with
  | instanceVar =>
    obtain ⟨c, hhead, hc⟩ := (Option.any_eq_true _ _).1 hcs.1
    exact (operator?_sign hsign cs).trans (if_pos (by rw [hhead]; exact isNameChar_of_start hc))
  | classVar => exact absurd rfl hsigil
  | globalVar => exact operator?_sign_dollar hsign cs

/-- The sign and the first of two at signs behind it. -/
theorem readsAs_sign_at (hsign : sign = '+' ∨ sign = '-') (hcs : IsWord cs) :
    ReadsAs (sign :: '@' :: '@' :: cs) [(.operator, String.ofList [sign, '@']),
      (.instanceVar, String.ofList ('@' :: cs))] :=
  readsAs_sign hsign ['@'] .instanceVar hcs (operator?_sign hsign ('@' :: cs))

/-- A sign right before a variable is an operator, and the variable is whole, exactly if it is no
class variable. Before a class variable the sign takes the first at sign. -/
theorem sign_before_variable_iff {sign : String} (hsign : sign = "+" ∨ sign = "-") (sigil : Sigil)
    {name : String} (hname : Text.isAsciiName name = true) :
    (CutsInto (sign ++ sigil.text ++ name)
        [(.operator, sign), (sigil.kind, sigil.text ++ name)] ↔ sigil ≠ .classVar) ∧
      CutsInto (sign ++ Sigil.classVar.text ++ name)
        [(.operator, sign ++ "@"), (.instanceVar, "@" ++ name)] := by
  have hword := isAsciiName_iff.1 hname
  obtain ⟨c, hc, rfl⟩ : ∃ c, (c = '+' ∨ c = '-') ∧ sign = String.ofList [c] := by
    rcases hsign with rfl | rfl
    · exact ⟨'+', .inl rfl, rfl⟩
    · exact ⟨'-', .inr rfl, rfl⟩
  have hclass : CutsInto (String.ofList [c] ++ Sigil.classVar.text ++ name)
      [(.operator, String.ofList [c] ++ "@"), (.instanceVar, "@" ++ name)] := by
    have hreads := readsAs_sign_at hc hword
    rw [cutsInto_iff]
    simpa [Sigil.text] using hreads
  refine ⟨⟨fun h => ?_, fun h => ?_⟩, hclass⟩
  · rintro rfl
    have hsame := h.unique hclass
    simp [Sigil.kind] at hsame
  · have hreads := readsAs_sign_variable hc h hword
    rw [cutsInto_iff]
    simpa using hreads

/-- A name with capitals and a digit behind either sigil. -/
theorem sign_before_variable_count :
    (¬CutsInto "-@@Count_2" [(.operator, "-"), (.classVar, "@@Count_2")] ∧
        CutsInto "-@@Count_2" [(.operator, "-@"), (.instanceVar, "@Count_2")]) ∧
      CutsInto "+@Count_2" [(.operator, "+"), (.instanceVar, "@Count_2")] := by
  have hclass := @sign_before_variable_iff "-" (.inr rfl) .classVar "Count_2" (by decide)
  have hinstance := @sign_before_variable_iff "+" (.inl rfl) .instanceVar "Count_2" (by decide)
  exact ⟨⟨fun h => hclass.1.1 h rfl, hclass.2⟩, hinstance.1.2 (by decide)⟩

/-- What was to be the difference of something and a class variable. -/
theorem class_variable_loses_at_sign :
    ¬CutsInto "-@@y" [(.operator, "-"), (.classVar, "@@y")] ∧
      CutsInto "-@@y" [(.operator, "-@"), (.instanceVar, "@y")] := by
  decide

end Lexer

end Spinel
