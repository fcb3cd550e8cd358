import Mathlib.Data.Nat.Find
import Spinel.Proofs.Text.Radix

/-!
# Integers at the front of texts

Every text can be cut into blanks, a sign, digits and the rest (`exists_leadingNumeral`). Reading
checks after each digit whether the integer still fits. It finds the integer that sign and digits
stand for if that fits, and nothing if it does not (`LeadingNumeral.leadingInteger_eq`): what is out
of range comes no nearer to zero by further digits, and the least integer is reached on its own side
of zero. The text of an integer is read as that integer (`leadingInteger_toString`).
-/

namespace Spinel.Text

/-- Digits, among which single underscores stand behind a digit. -/
inductive DigitRun : List Char → Prop
  | nil : DigitRun []
  | digit {c : Char} {run : List Char} (hc : c.isDigit = true) (h : DigitRun run) :
    DigitRun (c :: run)
  | bar {c : Char} {run : List Char} (hc : c.isDigit = true) (h : DigitRun run) :
    DigitRun (c :: '_' :: run)

/-- A run of digits goes as far as one can from its start, with `rest` behind it. -/
structure LongestRun (run rest : List Char) : Prop where
  digits : DigitRun run
  longest : ∀ other, DigitRun other → other <+: run ++ rest → other <+: run

/-- A text cut into all blanks in front, a sign or none, the longest run of digits and the rest. -/
structure LeadingNumeral (text blanks sign run rest : List Char) : Prop where
  split : text = blanks ++ (sign ++ (run ++ rest))
  blank : ∀ c ∈ blanks, isBlank c = true
  unblank : ∀ c ∈ (sign ++ (run ++ rest)).head?, isBlank c = false
  sign : sign = ['-'] ∨ sign = ['+'] ∨ sign = [] ∧ ∀ c ∈ (run ++ rest).head?, c ≠ '-' ∧ c ≠ '+'
  run : LongestRun run rest

/-- A number on either side of zero. -/
def signed (negative : Bool) (n : Nat) : Int := if negative then -n else n

@[simp] theorem signed_true (n : Nat) : signed true n = -n := rfl

@[simp] theorem signed_false (n : Nat) : signed false n = n := rfl

@[simp] theorem signed_zero (negative : Bool) : signed negative 0 = 0 := by
  cases negative <;> rfl

theorem signed_add (negative : Bool) (m n : Nat) :
    signed negative (m + n) = signed negative m + signed negative n := by
  cases negative with
  | true => rw [signed_true, signed_true, signed_true, Int.natCast_add, Int.neg_add]
  | false => exact Int.natCast_add m n

theorem signed_mul (negative : Bool) (m n : Nat) :
    signed negative (m * n) = signed negative m * n := by
  cases negative with
  | true => rw [signed_true, signed_true, Int.natCast_mul, Int.neg_mul]
  | false => exact Int.natCast_mul m n

/-- The integer that a sign and the digits of a run stand for, zero if there are none. -/
def signedValue (sign run : List Char) : Int :=
  signed (sign = ['-']) (numeralValue 10 (run.filter Char.isDigit))

variable {negative behind : Bool} {x : Int64} {m n : Nat} {c : Char}
variable {text blanks sign run rest before more : List Char}

/-! ## Decimal digits -/

theorem digitOf_of_isDigit (hc : c.isDigit = true) :
    c.toNat - 48 < 10 ∧ digitsOnto.digitOf (c.toNat - 48) = c := by
  have hrange : 48 ≤ c.toNat ∧ c.toNat ≤ 57 := Char.isDigit_iff_toNat.1 hc
  have hlt : c.toNat - 48 < 10 := by omega
  have hback : 48 + (c.toNat - 48) = c.toNat := by omega
  refine ⟨hlt, ?_⟩
  rw [digitsOnto.digitOf, if_pos hlt, hback, Char.ofNat_toNat]

theorem idxOf_of_isDigit (hc : c.isDigit = true) : digitChars.idxOf c = c.toNat - 48 := by
  obtain ⟨hlt, heq⟩ := digitOf_of_isDigit hc
  have hidx := idxOf_digitOf (Nat.lt_trans hlt (by decide))
  rwa [heq] at hidx

theorem isBlank_of_isDigit (hc : c.isDigit = true) : isBlank c = false := by
  obtain ⟨hlt, heq⟩ := digitOf_of_isDigit hc
  have hmem : c ∈ digitChars.take 10 := heq ▸ digitOf_mem_take hlt (by decide)
  have hall : (digitChars.take 10).all fun c => !isBlank c := by decide
  exact Bool.not_eq_true' _ ▸ List.all_eq_true.1 hall c hmem

/-! ## Reading digit by digit -/

/-- What is out of range stays so further away from zero. -/
theorem int64?_signed_eq_none (h : int64? (signed negative m) = none) (hle : m ≤ n) :
    int64? (signed negative n) = none := by
  rw [int64?_eq_none_iff] at h ⊢
  cases negative with
  | true =>
    rw [signed_true] at h ⊢
    omega
  | false =>
    rw [signed_false] at h ⊢
    omega

theorem numeralValue_le_append (digits more : List Char) :
    numeralValue 10 digits ≤ numeralValue 10 (digits ++ more) := by
  rw [numeralValue_append]
  exact Nat.le_add_right_of_le (Nat.le_mul_of_pos_right _ (by positivity))

theorem toInt_digit (negative : Bool) {d : Nat} (hd : d < 10) :
    (if negative then -Int64.ofNat d else Int64.ofNat d).toInt = signed negative d := by
  cases negative with
  | true => exact Int64.toInt_neg_ofNat_of_le (by omega)
  | false => exact Int64.toInt_ofNat_of_lt (by omega)

/-- The steps of a digit check no more than whether their outcome fits. -/
theorem pushDigit_eq (hx : x.toInt = signed negative (numeralValue 10 before))
    (hc : c.isDigit = true) :
    pushDigit negative x c = int64? (signed negative (numeralValue 10 (before ++ [c]))) := by
  have hlt := (digitOf_of_isDigit hc).1
  have hdigit := toInt_digit negative hlt
  have hsum := signed_add negative (numeralValue 10 before * 10) (c.toNat - 48)
  have hten : x.toInt * 10 = signed negative (numeralValue 10 before * 10) := by
    rw [hx, signed_mul]
    rfl
  rw [numeralValue_push, idxOf_of_isDigit hc]
  change (int64? (x.toInt * 10)).bind _ = _
  rw [hten]
  cases ht : int64? (signed negative (numeralValue 10 before * 10)) with
  | none => exact (int64?_signed_eq_none ht (Nat.le_add_right _ _)).symm
  | some tens =>
    rw [hsum, ← hdigit, ← int64?_eq_some_iff.1 ht]
    rfl

theorem integerFrom_digit (hx : x.toInt = signed negative (numeralValue 10 before))
    (hc : c.isDigit = true)
    (hrest : ∀ y : Int64, y.toInt = signed negative (numeralValue 10 (before ++ [c])) →
      integerFrom negative true y rest =
        int64? (signed negative (numeralValue 10 (before ++ [c] ++ more)))) :
    integerFrom negative behind x (c :: rest) =
      int64? (signed negative (numeralValue 10 (before ++ [c] ++ more))) := by
  rw [integerFrom, if_pos hc, pushDigit_eq hx hc]
  cases hy : int64? (signed negative (numeralValue 10 (before ++ [c]))) with
  | none => exact (int64?_signed_eq_none hy (numeralValue_le_append _ more)).symm
  | some y => exact hrest y (int64?_eq_some_iff.1 hy)

theorem integerFrom_stop (hdigit : ∀ c ∈ rest.head?, c.isDigit = false)
    (hbar : behind = true → rest.head? ≠ some '_') :
    integerFrom negative behind x rest = some x := by
  cases rest with
  | nil => rfl
  | cons c rest =>
    have hnot : (decide (c = '_') && behind) = false := by
      cases behind with
      | false => exact Bool.and_false _
      | true =>
        rw [Bool.and_true]
        exact decide_eq_false fun e => hbar rfl (congrArg some e)
    rw [integerFrom, hdigit c rfl, hnot]
    rfl

namespace LongestRun

theorem tail (h : LongestRun (c :: run) rest) (hc : c.isDigit = true) (hrun : DigitRun run) :
    LongestRun run rest where
  digits := hrun
  longest _ hother hpre :=
    (List.prefix_cons_inj c).1 (h.longest _ (.digit hc hother) ((List.prefix_cons_inj c).2 hpre))

theorem tail_bar (h : LongestRun (c :: '_' :: run) rest) (hc : c.isDigit = true)
    (hrun : DigitRun run) : LongestRun run rest where
  digits := hrun
  longest _ hother hpre := by
    have hwhole := h.longest _ (.bar hc hother)
      ((List.prefix_cons_inj c).2 ((List.prefix_cons_inj '_').2 hpre))
    exact (List.prefix_cons_inj '_').1 ((List.prefix_cons_inj c).1 hwhole)

/-- No underscore follows a digit that ends the run. -/
theorem head?_ne_bar (h : LongestRun (c :: run) rest) (hc : c.isDigit = true)
    (hrun : DigitRun run) : (run ++ rest).head? ≠ some '_' := by
  intro hbar
  have hother : [c, '_'] <+: c :: run ++ rest := by
    obtain ⟨more, hmore⟩ := List.head?_eq_some_iff.1 hbar
    exact ⟨more, congrArg (c :: ·) hmore.symm⟩
  have hpre := (List.prefix_cons_inj c).1 (h.longest _ (.bar hc .nil) hother)
  obtain ⟨more, hmore⟩ := hpre
  cases hrun with
  | nil => cases hmore
  | digit hd _ | bar hd _ =>
    cases hmore
    cases hd

/-- Behind the longest run, reading stops. -/
theorem head?_not_digit (h : LongestRun [] rest) : ∀ c ∈ rest.head?, c.isDigit = false := by
  intro c hc
  rw [Bool.eq_false_iff]
  intro hdigit
  obtain ⟨more, hmore⟩ := List.head?_eq_some_iff.1 hc
  have hpre := h.longest [c] (.digit hdigit .nil) ⟨more, hmore.symm⟩
  exact List.cons_ne_nil _ _ (List.prefix_nil.1 hpre)

end LongestRun

/-- Reading on behind digits that fit gives all digits together. -/
theorem integerFrom_run (hrun : DigitRun run) (h : LongestRun run rest)
    (hbar : behind = true → (run ++ rest).head? ≠ some '_')
    (hx : x.toInt = signed negative (numeralValue 10 before)) :
    integerFrom negative behind x (run ++ rest) =
      int64? (signed negative (numeralValue 10 (before ++ run.filter Char.isDigit))) := by
  induction hrun generalizing behind x before with
  | nil =>
    rw [List.nil_append] at hbar ⊢
    rw [List.filter_nil, List.append_nil, ← hx, int64?_toInt]
    exact integerFrom_stop h.head?_not_digit hbar
  | @digit c run hc hrun ih =>
    rw [List.filter_cons_of_pos hc, List.append_cons]
    exact integerFrom_digit hx hc fun y hy =>
      ih (h.tail hc hrun) (fun _ => h.head?_ne_bar hc hrun) hy
  | @bar c run hc hrun ih =>
    rw [List.filter_cons_of_pos hc, List.filter_cons_of_neg (by decide), List.append_cons]
    -- The underscore is passed over, and no other may follow it.
    exact integerFrom_digit hx hc fun y hy => ih (h.tail_bar hc hrun) nofun hy

/-! ## The front of a text -/

theorem LeadingNumeral.trimStart_eq (h : LeadingNumeral text blanks sign run rest) :
    trimStart text = sign ++ (run ++ rest) := by
  rw [h.split, trimStart, List.dropWhile_append_of_pos h.blank]
  cases hsigned : sign ++ (run ++ rest) with
  | nil => rfl
  | cons c more =>
    have hc : isBlank c = false := h.unblank c (by rw [hsigned]; rfl)
    exact List.dropWhile_cons_of_neg (by rw [hc]; exact Bool.false_ne_true)

theorem LeadingNumeral.takeSign_eq (h : LeadingNumeral text blanks sign run rest) :
    takeSign (sign ++ (run ++ rest)) = (decide (sign = ['-']), run ++ rest) := by
  obtain rfl | rfl | ⟨rfl, hnone⟩ := h.sign
  · rfl
  · rfl
  · rw [List.nil_append]
    cases hall : run ++ rest with
    | nil => rfl
    | cons c more =>
      obtain ⟨hminus, hplus⟩ := hnone c (by rw [hall]; rfl)
      unfold takeSign
      split
      · next heq => exact absurd (List.cons.inj heq).1 hminus
      · next heq => exact absurd (List.cons.inj heq).1 hplus
      · rfl

/-- The integer in front is the one that sign and digits stand for, if that fits. -/
theorem LeadingNumeral.leadingInteger_eq (h : LeadingNumeral text blanks sign run rest) :
    leadingInteger text = int64? (signedValue sign run) := by
  rw [leadingInteger, h.trimStart_eq, h.takeSign_eq, signedValue, ← List.nil_append (run.filter _)]
  have hzero : (0 : Int64).toInt = signed (sign = ['-']) (numeralValue 10 []) := by
    rw [numeralValue_nil, signed_zero, Int64.toInt_zero]
  exact integerFrom_run h.run.digits h.run nofun hzero

-- Two underscores end the digits.
example : leadingInteger " +1_2__3".toList = some 12 := by decide

/-- Of the runs of digits in front of a text, one is the longest. -/
theorem exists_longestRun (text : List Char) :
    ∃ run rest, text = run ++ rest ∧ LongestRun run rest := by
  classical
  let length := Nat.findGreatest (fun n => DigitRun (text.take n)) text.length
  have hrun : DigitRun (text.take length) :=
    Nat.findGreatest_spec (P := fun n => DigitRun (text.take n)) (Nat.zero_le _) .nil
  refine ⟨text.take length, text.drop length, (List.take_append_drop _ _).symm, hrun, ?_⟩
  intro other hother hpre
  rw [List.take_append_drop] at hpre
  have htake := List.prefix_iff_eq_take.1 hpre
  have hle : other.length ≤ length :=
    Nat.le_findGreatest (P := fun n => DigitRun (text.take n)) hpre.length_le (htake ▸ hother)
  rw [htake]
  exact List.take_prefix_take_left hle

theorem exists_sign (text : List Char) : ∃ sign more, text = sign ++ more ∧
    (sign = ['-'] ∨ sign = ['+'] ∨ sign = [] ∧ ∀ c ∈ more.head?, c ≠ '-' ∧ c ≠ '+') := by
  by_cases hminus : text.head? = some '-'
  · obtain ⟨more, rfl⟩ := List.head?_eq_some_iff.1 hminus
    exact ⟨['-'], more, rfl, .inl rfl⟩
  by_cases hplus : text.head? = some '+'
  · obtain ⟨more, rfl⟩ := List.head?_eq_some_iff.1 hplus
    exact ⟨['+'], more, rfl, .inr (.inl rfl)⟩
  · refine ⟨[], text, rfl, .inr (.inr ⟨rfl, fun c hc => ⟨?_, ?_⟩⟩)⟩
    · rintro rfl
      exact hminus hc
    · rintro rfl
      exact hplus hc

theorem exists_leadingNumeral (text : List Char) :
    ∃ blanks sign run rest, LeadingNumeral text blanks sign run rest := by
  obtain ⟨sign, more, hmore, hsign⟩ := exists_sign (trimStart text)
  obtain ⟨run, rest, rfl, hrun⟩ := exists_longestRun more
  refine ⟨text.takeWhile isBlank, sign, run, rest, ?_, ?_, ?_, hsign, hrun⟩
  · rw [← hmore, trimStart, List.takeWhile_append_dropWhile]
  · exact List.all_eq_true.1 List.all_takeWhile
  · intro c hc
    have hhead := List.head?_dropWhile_not isBlank text
    rw [← trimStart, hmore, Option.mem_def.1 hc] at hhead
    exact hhead

/-! ## The text of an integer -/

theorem digitRun_of_forall {digits : List Char} (h : ∀ c ∈ digits, c.isDigit = true) :
    DigitRun digits := by
  induction digits with
  | nil => exact .nil
  | cons c digits ih =>
    obtain ⟨hc, hdigits⟩ := List.forall_mem_cons.1 h
    exact .digit hc (ih hdigits)

/-- A run of digits with nothing behind it is the longest. -/
theorem DigitRun.longestRun (h : DigitRun run) : LongestRun run [] where
  digits := h
  longest other _ hpre := by rwa [List.append_nil] at hpre

/-- The text of an integer is its sign and its digits. -/
theorem leadingNumeral_toString (x : Int64) :
    LeadingNumeral (toString x).toList [] (if x.toInt < 0 then ['-'] else [])
      (Nat.toDigits 10 x.toInt.natAbs) [] where
  split := by rw [toList_toString, List.append_nil, List.nil_append]
  blank := nofun
  unblank c hc := by
    rw [List.append_nil] at hc
    have hmem := List.mem_of_mem_head? hc
    rcases List.mem_append.1 hmem with hsign | hdigit
    · split at hsign
      · cases List.mem_singleton.1 hsign
        decide
      · cases hsign
    · exact isBlank_of_isDigit (isDigit_of_mem_toDigits hdigit)
  sign := by
    split
    · exact .inl rfl
    · refine .inr (.inr ⟨rfl, fun c hc => ?_⟩)
      rw [List.append_nil] at hc
      have hdigit := isDigit_of_mem_toDigits (List.mem_of_mem_head? hc)
      constructor <;>
      · rintro rfl
        cases hdigit
  run := (digitRun_of_forall fun _ => isDigit_of_mem_toDigits).longestRun

/-- The text of an integer is read as that integer, also if it is the least. -/
theorem leadingInteger_toString (x : Int64) : leadingInteger (toString x).toList = some x := by
  have hdigits : (Nat.toDigits 10 x.toInt.natAbs).filter Char.isDigit =
      Nat.toDigits 10 x.toInt.natAbs :=
    List.filter_eq_self.2 fun _ => isDigit_of_mem_toDigits
  rw [(leadingNumeral_toString x).leadingInteger_eq, int64?_eq_some_iff, signedValue, hdigits,
    (isNumeral_toDigits _).value]
  split
  · rw [decide_eq_true rfl, signed_true]
    omega
  · rw [decide_eq_false nofun, signed_false]
    omega

end Spinel.Text
