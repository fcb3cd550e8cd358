import Spinel.Proofs.Text.Quoted
import Spinel.Proofs.Token.Contents

/-!
# Which texts are read back

A quoted text reads as one string, whatever its characters are (`Lexer.cutsInto_quoted`). A control
character without an escape of its own is written by its number, and what that reads as is longer
than the character by four (`length_readBack`). No character ever reads as less than itself, so the
lengths tell that a text with such a character is not read back, whatever stands around it
(`Lexer.quoted_read_back_iff`).
-/

namespace Spinel

namespace Text

theorem isShown_iff {c : Char} :
    isShown c = true ↔ c.toNat < 32 ∨ 127 ≤ c.toNat ∧ c.toNat < 160 →
      c ∈ ['\n', '\t', '\r', '\x1b'] := by
  simp only [isShown, isControl, Bool.or_eq_true, Bool.not_eq_true', Bool.or_eq_false_iff,
    Bool.and_eq_false_iff, decide_eq_false_iff_not, beq_iff_eq, List.mem_cons, List.not_mem_nil,
    or_false]
  grind

theorem length_readBack (c : Char) : (readBack c).length = if isShown c then 1 else 5 := by
  unfold readBack
  split <;> rfl

/-- What a text reads as is longer than the text by four for each character that is not shown. -/
theorem length_flatMap_readBack (cs : List Char) :
    (cs.flatMap readBack).length = cs.length + 4 * cs.countP (!isShown ·) := by
  induction cs with
  | nil => rfl
  | cons c cs ih =>
    rw [List.flatMap_cons, List.length_append, length_readBack, ih, List.length_cons,
      List.countP_cons]
    cases isShown c with
    | true => simp only [Bool.not_true, if_true, Bool.false_eq_true, if_false]; omega
    | false => simp only [Bool.not_false, if_true, Bool.false_eq_true, if_false]; omega

theorem flatMap_readBack_eq_self_iff {cs : List Char} :
    cs.flatMap readBack = cs ↔ ∀ c ∈ cs, isShown c = true := by
  refine ⟨fun h c hc => ?_, flatMap_readBack⟩
  have hlength := length_flatMap_readBack cs
  rw [h] at hlength
  have hnone : cs.countP (!isShown ·) = 0 := by omega
  have hshown := List.countP_eq_zero.1 hnone c hc
  rwa [Bool.not_eq_true', Bool.not_eq_false] at hshown

end Text

namespace Lexer

theorem cutsInto_quoted (s : String) :
    CutsInto (Text.quoted s) [(.string, String.ofList (s.toList.flatMap Text.readBack))] := by
  have hfirst := Text.firstToken?_quoted_readBack s []
  rw [List.append_nil] at hfirst
  exact cutsInto_iff.2 ((readsAs_of_firstToken? hfirst).2 ⟨rfl, readsAs_nil.2 rfl⟩)

/-- A text is read back from its quoted form, as one string, exactly if its only control characters
are line feeds, tabs, carriage returns and escapes. -/
theorem quoted_read_back_iff (s : String) :
    CutsInto (Text.quoted s) [(.string, s)] ↔
      ∀ c ∈ s.toList, c.toNat < 32 ∨ 127 ≤ c.toNat ∧ c.toNat < 160 →
        c ∈ ['\n', '\t', '\r', '\x1b'] := by
  have hread : CutsInto (Text.quoted s) [(.string, s)] ↔
      s.toList.flatMap Text.readBack = s.toList := by
    constructor
    · intro h
      have hsame := (cutsInto_quoted s).unique h
      simp only [List.cons.injEq, Prod.mk.injEq, and_true, true_and] at hsame
      rw [← String.toList_ofList (l := s.toList.flatMap Text.readBack), hsame]
    · intro h
      have hcuts := cutsInto_quoted s
      rwa [h, String.ofList_toList] at hcuts
  rw [hread, Text.flatMap_readBack_eq_self_iff]
  exact forall₂_congr fun c _ => Text.isShown_iff

end Lexer

end Spinel
