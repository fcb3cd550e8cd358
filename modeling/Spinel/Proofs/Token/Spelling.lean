import Spinel.Proofs.Token.Reading

/-!
# What spelt-out tokens read as

A name, a numeral, an operator or a separator in front of other text is read as the token it spells,
provided that the text behind it does not continue it. What continues a token depends on its kind:
`EndsName` and `EndsNumber` say of a text that it does not continue a name or a numeral.
-/

namespace Spinel.Lexeme

/-! ## Classes of characters -/

-- The bounds are numerals, which `omega` can use.
theorem isUpper_iff_toNat {c : Char} : c.isUpper = true ↔ 65 ≤ c.toNat ∧ c.toNat ≤ 90 :=
  decide_eq_true_iff

theorem isLower_iff_toNat {c : Char} : c.isLower = true ↔ 97 ≤ c.toNat ∧ c.toNat ≤ 122 := by
  change (decide ('a'.val ≤ c.val) && decide (c.val ≤ 'z'.val)) = true ↔ _
  rw [Bool.and_eq_true, decide_eq_true_iff, decide_eq_true_iff]
  exact Iff.rfl

theorem isAlpha_iff_toNat {c : Char} : c.isAlpha = true ↔
    (65 ≤ c.toNat ∧ c.toNat ≤ 90) ∨ (97 ≤ c.toNat ∧ c.toNat ≤ 122) := by
  change (c.isUpper || c.isLower) = true ↔ _
  rw [Bool.or_eq_true, isUpper_iff_toNat, isLower_iff_toNat]

theorem isDigit_iff_toNat {c : Char} : c.isDigit = true ↔ 48 ≤ c.toNat ∧ c.toNat ≤ 57 :=
  Char.isDigit_iff_toNat

theorem isNameStart_iff {c : Char} : isNameStart c = true ↔
    (65 ≤ c.toNat ∧ c.toNat ≤ 90) ∨ (97 ≤ c.toNat ∧ c.toNat ≤ 122) ∨ c.toNat = 95 := by
  have h : (c == '_') = true ↔ c.toNat = 95 := by
    rw [beq_iff_eq, ← Char.toNat_inj]
    exact Iff.rfl
  rw [isNameStart, Bool.or_eq_true, isAlpha_iff_toNat, h, or_assoc]

theorem isNameStart_of_isLower {c : Char} (h : c.isLower = true) : isNameStart c = true :=
  isNameStart_iff.2 (.inr (.inl (isLower_iff_toNat.1 h)))

theorem isNameChar_iff {c : Char} :
    isNameChar c = true ↔ isNameStart c = true ∨ c.isDigit = true := by
  simp only [isNameChar, isNameStart, Char.isAlphanum, Bool.or_eq_true]
  grind

theorem isNameChar_of_start {c : Char} (h : isNameStart c = true) : isNameChar c = true :=
  isNameChar_iff.2 (.inl h)

theorem isNameChar_of_isDigit {c : Char} (h : c.isDigit = true) : isNameChar c = true :=
  isNameChar_iff.2 (.inr h)

theorem isDigitOrBar_of_isDigit {c : Char} (h : c.isDigit = true) : isDigitOrBar c = true := by
  simp [isDigitOrBar, h]

theorem isNameChar_of_isDigitOrBar {c : Char} (h : isDigitOrBar c = true) :
    isNameChar c = true := by
  simp only [isDigitOrBar, isNameChar, Char.isAlphanum, Bool.or_eq_true] at h ⊢
  grind

/-- The characters that a blank begins with. -/
def opensBlank (c : Char) : Bool := c == ' ' || c == '\t' || c == '\r' || c == '#' || c == '\\'

theorem blanks_eq_zero {c : Char} (h : opensBlank c = false) (cs : List Char) :
    blanks (c :: cs) false = 0 := by
  simp only [opensBlank, Bool.or_eq_false_iff, beq_eq_false_iff_ne] at h
  obtain ⟨⟨⟨⟨hs, ht⟩, hr⟩, hh⟩, hb⟩ := h
  rw [blanks]
  · simp [hs, ht, hr, hh]
  · intro more e
    exact absurd e hb

theorem opensBlank_eq_false_of_isNameChar {c : Char} (h : isNameChar c = true) :
    opensBlank c = false := by
  cases hb : opensBlank c with
  | false => rfl
  | true =>
    simp only [opensBlank, Bool.or_eq_true, beq_iff_eq] at hb
    rcases hb with (((rfl | rfl) | rfl) | rfl) | rfl <;> exact absurd h (by decide)

/-! ## Names -/

/-- The text does not continue a name before it. -/
def EndsName (rest : List Char) : Prop :=
  ∀ c, rest.head? = some c → isNameChar c = false ∧ c ≠ '?' ∧ c ≠ '!'

theorem takeWhile_append_stop {p : Char → Bool} {cs rest : List Char} (hcs : ∀ c ∈ cs, p c = true)
    (hrest : ∀ c, rest.head? = some c → p c = false) : (cs ++ rest).takeWhile p = cs := by
  rw [List.takeWhile_append_of_pos hcs]
  cases rest with
  | nil => simp
  | cons c rest => simp [hrest c rfl]

theorem identifier_append {cs rest : List Char} (hcs : ∀ c ∈ cs, isNameChar c = true)
    (hrest : EndsName rest) : identifier (cs ++ rest) = cs := by
  have htake : (cs ++ rest).takeWhile isNameChar = cs :=
    takeWhile_append_stop hcs fun c hc => (hrest c hc).1
  unfold identifier
  simp only [htake, List.drop_left]
  cases rest with
  | nil => rfl
  | cons c rest =>
    obtain ⟨-, hq, hb⟩ := hrest c rfl
    simp [hq, hb]

/-- A letter or a bar begins no other token than a name. -/
theorem ofChars_of_isNameStart {c : Char} (h : isNameStart c = true) (rest : List Char) :
    ofChars c rest =
      plain (if c.isUpper then .constant else .identifier) (identifier (c :: rest))
        (identifier (c :: rest)).length := by
  have hd : c.isDigit = false := by
    rw [Bool.eq_false_iff, ne_eq, isDigit_iff_toNat]
    rw [isNameStart_iff] at h
    omega
  have hne : ∀ d : Char, isNameStart d = false → c ≠ d := by
    rintro d hd rfl
    rw [h] at hd
    cases hd
  simp only [ofChars, hne '\n' (by decide), hne '"' (by decide), hne '\'' (by decide),
    hne ':' (by decide), hne '@' (by decide), hne '$' (by decide), hd, h, or_self,
    Bool.false_eq_true, if_false, if_true]

theorem firstToken?_name {c : Char} {cs rest : List Char} (hc : isNameStart c = true)
    (hcs : ∀ d ∈ cs, isNameChar d = true) (hrest : EndsName rest) :
    firstToken? (c :: cs ++ rest) =
      some (.bare (if c.isUpper then .constant else .identifier) (String.ofList (c :: cs)) false,
        rest) := by
  have hall : ∀ d ∈ c :: cs, isNameChar d = true := by
    intro d hd
    rcases List.mem_cons.1 hd with rfl | hd
    · exact isNameChar_of_start hc
    · exact hcs d hd
  have hid : identifier (c :: (cs ++ rest)) = c :: cs := identifier_append hall hrest
  have hof := ofChars_of_isNameStart hc (cs ++ rest)
  rw [hid] at hof
  have hblank := opensBlank_eq_false_of_isNameChar (isNameChar_of_start hc)
  rw [List.cons_append, firstToken?_of_reading (blanks_eq_zero hblank _) (by rw [hof]; rfl), hof]
  simp [plain]

/-! ## Numerals -/

/-- The text does not continue a numeral before it. -/
def EndsNumber (rest : List Char) : Prop :=
  (∀ c, rest.head? = some c → isNameChar c = false) ∧ fraction rest = []

theorem number_append {ds rest : List Char} (hds : ∀ d ∈ ds, d.isDigit = true)
    (hrest : EndsNumber rest) : number (ds ++ rest) = plain .integer ds ds.length := by
  have htake : (ds ++ rest).takeWhile isDigitOrBar = ds := by
    refine takeWhile_append_stop (fun d hd => isDigitOrBar_of_isDigit (hds d hd)) fun c hc => ?_
    rw [Bool.eq_false_iff]
    intro hbar
    exact absurd (isNameChar_of_isDigitOrBar hbar) (by rw [hrest.1 c hc]; decide)
  have hfilter : ds.filter Char.isDigit = ds := List.filter_eq_self.2 hds
  unfold number
  simp only [htake, List.drop_left, hrest.2, hfilter, List.isEmpty_nil, if_true]
  cases rest with
  | nil => rfl
  | cons c rest =>
    have hc : isNameStart c = false := by
      rw [Bool.eq_false_iff]
      intro hs
      exact absurd (isNameChar_of_start hs) (by rw [hrest.1 c rfl]; decide)
    simp [hc]

theorem ofChars_of_isDigit {c : Char} (h : c.isDigit = true) (rest : List Char) :
    ofChars c rest = number (c :: rest) := by
  have hne : ∀ d : Char, d.isDigit = false → c ≠ d := by
    rintro d hd rfl
    rw [h] at hd
    cases hd
  simp only [ofChars, hne '\n' (by decide), hne '"' (by decide), hne '\'' (by decide),
    hne ':' (by decide), hne '@' (by decide), hne '$' (by decide), h, or_self, if_false, if_true]

theorem firstToken?_number {ds rest : List Char} (hne : ds ≠ [])
    (hds : ∀ d ∈ ds, d.isDigit = true) (hrest : EndsNumber rest) :
    firstToken? (ds ++ rest) = some (.bare .integer (String.ofList ds) false, rest) := by
  cases ds with
  | nil => exact absurd rfl hne
  | cons d ds =>
    have hd := hds d List.mem_cons_self
    have hof : ofChars d (ds ++ rest) = plain .integer (d :: ds) (d :: ds).length := by
      rw [ofChars_of_isDigit hd]
      exact number_append hds hrest
    have hblank := opensBlank_eq_false_of_isNameChar (isNameChar_of_isDigit hd)
    rw [List.cons_append, firstToken?_of_reading (blanks_eq_zero hblank _) (by rw [hof]; rfl), hof]
    simp [plain]

/-! ## Operators and separators -/

/-- The characters that neither names nor numerals nor quoted tokens begin with. -/
def opensSign (c : Char) : Bool :=
  !(opensBlank c || c == '\n' || c == '"' || c == '\'' || c == ':' || c == '@' || c == '$' ||
    isNameChar c)

theorem ofChars_of_opensSign {c : Char} (h : opensSign c = true) (rest : List Char) :
    ofChars c rest =
      { (match operator? (c :: rest) with
        | some op => plain .operator op op.length
        | none =>
          if c ∈ separators then plain .separator [c] 1
          else ⟨.malformed (.unexpectedChar c) .first, 0, 0⟩ : Lexeme) with lookahead := 3 } := by
  simp only [opensSign, Bool.not_eq_true', Bool.or_eq_false_iff, beq_eq_false_iff_ne] at h
  obtain ⟨⟨⟨⟨⟨⟨⟨-, hn⟩, hq⟩, ha⟩, hcolon⟩, hat⟩, hdollar⟩, hname⟩ := h
  have hs : isNameStart c = false := by
    rw [Bool.eq_false_iff]
    exact fun hs => absurd (isNameChar_of_start hs) (by rw [hname]; decide)
  have hd : c.isDigit = false := by
    rw [Bool.eq_false_iff]
    exact fun hd => absurd (isNameChar_of_isDigit hd) (by rw [hname]; decide)
  have hquote : ¬(c = '"' ∨ c = '\'') := by simp only [hq, ha, or_self, not_false_eq_true]
  have hsigil : ¬(c = '@' ∨ c = '$') := by simp only [hat, hdollar, or_self, not_false_eq_true]
  have hdigit : ¬c.isDigit = true := by rw [hd]; decide
  have hstart : ¬isNameStart c = true := by rw [hs]; decide
  exact (if_neg hn).trans ((if_neg hquote).trans ((if_neg hcolon).trans ((if_neg hsigil).trans
    ((if_neg hdigit).trans (if_neg hstart)))))

theorem opensBlank_eq_false_of_opensSign {c : Char} (h : opensSign c = true) :
    opensBlank c = false := by
  simp only [opensSign, Bool.not_eq_true', Bool.or_eq_false_iff] at h
  exact h.1.1.1.1.1.1.1

theorem firstToken?_operator (c : Char) (cs : List Char) {rest : List Char}
    (hc : opensSign c = true) (h : operator? (c :: cs ++ rest) = some (c :: cs)) :
    firstToken? (c :: cs ++ rest) =
      some (.bare .operator (String.ofList (c :: cs)) false, rest) := by
  have hof := ofChars_of_opensSign hc (cs ++ rest)
  rw [← List.cons_append, h] at hof
  have hblank := opensBlank_eq_false_of_opensSign hc
  rw [List.cons_append, firstToken?_of_reading (blanks_eq_zero hblank _) (by rw [hof]; rfl), hof]
  simp [plain]

theorem firstToken?_separator {c : Char} {rest : List Char} (hc : opensSign c = true)
    (hmem : c ∈ separators) (h : operator? (c :: rest) = none) :
    firstToken? (c :: rest) = some (.bare .separator (String.ofList [c]) false, rest) := by
  have hof := ofChars_of_opensSign hc rest
  simp only [h, if_pos hmem] at hof
  have hblank := opensBlank_eq_false_of_opensSign hc
  rw [firstToken?_of_reading (blanks_eq_zero hblank _) (by rw [hof]; rfl), hof]
  simp [plain]

theorem operator?_eq_none {c : Char}
    (h : (operatorsOfThree ++ operatorsOfTwo).all (·.head? != some c) = true)
    (h1 : c ∉ operatorsOfOne) (rest : List Char) : operator? (c :: rest) = none := by
  have hnot : ∀ n, (c :: rest).take (n + 1) ∉ operatorsOfThree ++ operatorsOfTwo := by
    intro n hm
    have := List.all_eq_true.1 h _ hm
    simp at this
  have h3 := fun hm => hnot 2 (List.mem_append_left _ hm)
  have h2 := fun hm => hnot 1 (List.mem_append_right _ hm)
  unfold operator?
  rw [if_neg h3, if_neg h2]
  simp [h1]

end Spinel.Lexeme
