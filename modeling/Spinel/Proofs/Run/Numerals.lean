import Spinel.Proofs.Run.Arithmetic
import Spinel.Proofs.Run.Receivers
import Spinel.Proofs.Text.LeadingInteger

/-!
# Integers from texts and as texts

A text gives the integer at its front if that fits, and overflows if it does not
(`leading_integer_exact`). An integer is written as a numeral in any base from two to thirty-six,
and other bases are refused (`integer_text_in_base`).
-/

namespace Spinel

open Run Text

/-- A computation gives a string with a text. -/
def Run.GivesText (run : Run Value) (text : String) (w : World) : Prop :=
  ∃ v w', run w = .ok v w' ∧ w'.heap.text? v = some text

theorem Run.givesText_newText (text : String) (w : World) : (newText text).GivesText text w :=
  ⟨.str ⟨w.heap.texts.size⟩, { w with heap := (w.heap.newText text).2 }, rfl,
    congrArg some (Store.get_push_size w.heap.texts text)⟩

theorem Texts.run_toInteger {w : World} {call : Call} {text : String}
    (h : w.heap.text? call.receiver = some text) :
    Texts.run .toInteger call w = exactly (leadingInteger text.toList) w :=
  bind_of_ok (needs_of_some h) _

/-- Every text can be cut into blanks, a sign, the longest run of digits and the rest. What it gives
is the integer that sign and digits stand for, or an overflow if that is none of sixty-four bits.
The text of an integer gives that integer again. These are the methods that strings and integers
have when a session starts. -/
theorem leading_integer_exact (interp : Interp) (n : Nat) (w : World) (call : Call) (text : String)
    (h : w.heap.text? call.receiver = some text) :
    (∃ blanks sign run rest, LeadingNumeral text.toList blanks sign run rest) ∧
      (∀ blanks sign run rest, LeadingNumeral text.toList blanks sign run rest →
        (Builtin.run interp n (.string .toInteger) call).GivesExactly (signedValue sign run) w) ∧
      (∀ x : Int64, ∃ v w', Builtin.run interp n (.integer .text) ⟨.int x, [], none⟩ w = .ok v w' ∧
        Builtin.run interp n (.string .toInteger) ⟨v, [], none⟩ w' = .ok (.int x) w') ∧
      (∀ r, Core.heap.methodOf (.str r) "to_i" = some (.builtin (.string .toInteger))) ∧
      (∀ x, Core.heap.methodOf (.int x) "to_s" = some (.builtin (.integer .text))) ∧
      Fault.overflow.kind = .rangeError := by
  refine ⟨exists_leadingNumeral text.toList, ?_, ?_, fun _ => rfl, fun _ => rfl, rfl⟩
  · intro blanks sign run rest hcut
    apply givesExactly_of_eq
    rw [← hcut.leadingInteger_eq]
    exact Texts.run_toInteger h
  · intro x
    obtain ⟨v, w', hrun, hv⟩ := givesText_newText (toString x) w
    refine ⟨v, w', hrun, ?_⟩
    have hread : Texts.run .toInteger ⟨v, [], none⟩ w' = _ := Texts.run_toInteger hv
    rw [leadingInteger_toString] at hread
    exact hread

/-- The least integer is read over an underscore, and its opposite overflows. -/
theorem leading_integer_exact_least :
    let w : World :=
      { heap := ((Core.heap.newText "\t-9_223372036854775808").2.newText
          "9223372036854775808").2 }
    let least : Value := .str ⟨0⟩
    let opposite : Value := .str ⟨1⟩
    w.heap.text? least = some "\t-9_223372036854775808" ∧
      w.heap.text? opposite = some "9223372036854775808" ∧
      Builtin.run Session.evaluator 0 (.string .toInteger) ⟨least, [], none⟩ w =
        .ok (.int Int64.minValue) w ∧
      Builtin.run Session.evaluator 0 (.string .toInteger) ⟨opposite, [], none⟩ w =
        .error (.failed { fault := .overflow }) w := by
  intro w least opposite
  have hleast : w.heap.text? least = some "\t-9_223372036854775808" := rfl
  have hopposite : w.heap.text? opposite = some "9223372036854775808" := rfl
  have hcut : LeadingNumeral "\t-9_223372036854775808".toList ['\t'] ['-']
      "9_223372036854775808".toList [] :=
    ⟨rfl, List.all_eq_true.1 rfl, fun _ hc => Option.some.inj hc ▸ rfl, .inl rfl,
      (DigitRun.bar rfl (digitRun_of_forall (List.all_eq_true.1 rfl))).longestRun⟩
  have hdigits :
      LeadingNumeral "9223372036854775808".toList [] [] "9223372036854775808".toList [] :=
    ⟨rfl, nofun, fun _ hc => Option.some.inj hc ▸ rfl,
      .inr (.inr ⟨rfl, fun _ hc => Option.some.inj hc ▸ by decide⟩),
      (digitRun_of_forall (List.all_eq_true.1 rfl)).longestRun⟩
  obtain ⟨-, hreads, -⟩ :=
    leading_integer_exact Session.evaluator 0 w ⟨least, [], none⟩ _ hleast
  obtain ⟨-, hoverflows, -⟩ :=
    leading_integer_exact Session.evaluator 0 w ⟨opposite, [], none⟩ _ hopposite
  refine ⟨hleast, hopposite, (hreads _ _ _ _ hcut).ok _ (by decide),
    (hoverflows _ _ _ _ hdigits).overflow fun r => ?_⟩
  have hlt := r.toInt_lt
  have hvalue : signedValue [] "9223372036854775808".toList = 2 ^ 63 := by decide
  omega

/-- The bases that are refused are those outside two to thirty-six. In the others an integer is
written as a minus, if it is negative, and the numeral of its magnitude. No base stands for ten. -/
theorem integer_text_in_base (interp : Interp) (n : Nat) (w : World) (block : Option Callable)
    (x base : Int64) :
    let text (args : List Value) := Builtin.run interp n (.integer .text) ⟨.int x, args, block⟩
    (text [.int base] w = fail (.invalidArgument "radix") w ↔
        ¬(2 ≤ base.toInt ∧ base.toInt ≤ 36)) ∧
      (2 ≤ base.toInt ∧ base.toInt ≤ 36 → ∃ digits,
        IsNumeral base.toInt.toNat x.toInt.natAbs digits ∧
          (text [.int base]).GivesText
            (.ofList ((if x.toInt < 0 then ['-'] else []) ++ digits)) w) ∧
      text [.int 10] w = text [] w ∧
      (Fault.invalidArgument "radix").kind = .argumentError ∧
      (Fault.invalidArgument "radix").message = "invalid argument: radix" ∧
      Core.heap.methodOf (.int x) "to_s" = some (.builtin (.integer .text)) := by
  intro text
  have hrun : text [.int base] w =
      (if 2 ≤ base.toInt ∧ base.toInt ≤ 36 then newText (radixText x base.toInt.toNat)
        else fail (.invalidArgument "radix")) w := rfl
  refine ⟨?_, ?_, rfl, rfl, rfl, rfl⟩
  · rw [hrun]
    split
    · next hin => exact iff_of_false nofun (not_not_intro hin)
    · next hout => exact iff_of_true rfl hout
  · rintro ⟨hlow, hhigh⟩
    have hlow' : 2 ≤ base.toInt.toNat := by omega
    obtain ⟨digits, hdigits, htext⟩ := exists_isNumeral_radixText hlow' (by omega) x
    refine ⟨digits, hdigits, ?_⟩
    rw [if_pos ⟨hlow, hhigh⟩, htext] at hrun
    obtain ⟨v, w', hnew, hv⟩ := givesText_newText _ w
    exact ⟨v, w', hrun.trans hnew, hv⟩

/-- The magnitude of the least integer has a numeral in base thirty-six, and a base of thirty-seven
is refused. -/
theorem integer_text_in_base_least :
    let w : World := { heap := Core.heap }
    let text (base : Int64) :=
      Builtin.run Session.evaluator 0 (.integer .text) ⟨.int Int64.minValue, [.int base], none⟩
    (2 ≤ (36 : Int64).toInt ∧ (36 : Int64).toInt ≤ 36) ∧
      (∃ digits, IsNumeral 36 (2 ^ 63) digits ∧ (text 36).GivesText (.ofList ('-' :: digits)) w) ∧
      text 37 w = fail (.invalidArgument "radix") w := by
  intro w text
  have hin : 2 ≤ (36 : Int64).toInt ∧ (36 : Int64).toInt ≤ 36 := by decide
  obtain ⟨-, hwrites, -⟩ :=
    integer_text_in_base Session.evaluator 0 w none Int64.minValue 36
  obtain ⟨hrefuses, -⟩ := integer_text_in_base Session.evaluator 0 w none Int64.minValue 37
  exact ⟨hin, hwrites hin, hrefuses.2 (by decide)⟩

end Spinel
