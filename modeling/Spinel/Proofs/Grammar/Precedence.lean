import Spinel.Proofs.Grammar.Operators
import Spinel.Proofs.Text.Numeral

/-!
# Precedence

A `Formula` is a tree of infix operators over numerals and names. It is written either with the
parentheses that the levels of its operators ask for, all of them grouping to the left
(`Formula.text`), or with parentheses around every operator (`Formula.fullText`). Both are read back
as the tree that they were written from (`parse_text_and_fullText`).

`Spelled k f cs` covers these two ways and all between them: `cs` spells `f` where operators looser
than level `k` need parentheses. Such characters read as a `Phrase`, the same on tokens, and the
loops of the grammar read phrases level by level (`Phrase.reached`).
-/

namespace Spinel.Grammar

/-! ## Formulas and their texts -/

/-- Whether a name is spelt in small letters, digits and bars, no digit first, and no keyword. -/
def isPlainName (name : String) : Bool :=
  name.toList.head?.any (fun c => c.isLower || c == '_') &&
    name.toList.all (fun c => c.isLower || c == '_' || c.isDigit) && !keywords.contains name

/-- A tree of infix operators. -/
inductive Formula where
  | integer (value : Nat) (fits : value < 2 ^ 63)
  | named (name : String) (plain : isPlainName name = true)
  | apply (op : Operator) (left right : Formula)

namespace Formula

/-- The level of the outermost operator. What has none binds tighter than all operators. -/
def level : Formula → Nat
  | .integer .. | .named .. => operatorLevels.length
  | .apply op _ _ => op.level

/-- The text in parentheses if they are needed. -/
def bracketed (needed : Bool) (text : String) : String :=
  if needed then "(" ++ text ++ ")" else text

/-- Written with parentheses where the levels of the operators ask for them. -/
def text : Formula → String
  | .integer value _ => value.repr
  | .named name _ => name
  | .apply op left right =>
    bracketed (left.level < op.level) left.text ++ " " ++ op.text ++ " " ++
      bracketed (right.level ≤ op.level) right.text

/-- Written with parentheses around every operator and its operands. -/
def fullText : Formula → String
  | .integer value _ => value.repr
  | .named name _ => name
  | .apply op left right => "(" ++ left.fullText ++ " " ++ op.text ++ " " ++ right.fullText ++ ")"

/-- The node is the formula, wherever its parts were read from. -/
def Matches : Formula → Node → Prop
  | .integer value _, node => node.form = .integer (.ofInt value)
  | .named name _, node => node.form = .localVar name
  | .apply op left right, node =>
    ∃ l r, left.Matches l ∧ right.Matches r ∧ node.form = formOf op.text l r

end Formula

/-! ## From characters to tokens -/

/-- The characters spell the formula where operators looser than level `k` need parentheses. -/
inductive Spelled : Nat → Formula → List Char → Prop
  | integer {k value : Nat} {fits : value < 2 ^ 63} :
      Spelled k (.integer value fits) (Nat.toDigits 10 value)
  | named {k : Nat} {name : String} {plain : isPlainName name = true} :
      Spelled k (.named name plain) name.toList
  | apply {k : Nat} {op : Operator} {left right : Formula} {ls rs : List Char} :
      k ≤ op.level → Spelled op.level left ls → Spelled (op.level + 1) right rs →
      Spelled k (.apply op left right) (ls ++ ' ' :: (op.text.toList ++ ' ' :: rs))
  | parentheses {k : Nat} {f : Formula} {cs : List Char} :
      Spelled 0 f cs → Spelled k f ('(' :: (cs ++ [')']))

/-- The tokens spell the formula where operators looser than level `k` need parentheses. -/
inductive Phrase : Nat → Formula → List Token → Prop
  | integer {k value : Nat} {fits : value < 2 ^ 63} {text : String} {spaced : Bool} :
      Text.decimalValue text.toList = value →
      Phrase k (.integer value fits) [.bare .integer text spaced]
  | named {k : Nat} {name : String} {plain : isPlainName name = true} {spaced : Bool} :
      Phrase k (.named name plain) [.bare .identifier name spaced]
  | apply {k : Nat} {op : Operator} {left right : Formula} {ls rs : List Token} (spaced : Bool) :
      k ≤ op.level → Phrase op.level left ls → Phrase (op.level + 1) right rs →
      Phrase k (.apply op left right) (ls ++ operatorToken op.text spaced :: rs)
  | parentheses {k : Nat} {f : Formula} {ts : List Token} (opening closing : Bool) :
      Phrase 0 f ts →
      Phrase k f (.bare .separator "(" opening :: (ts ++ [.bare .separator ")" closing]))

theorem Formula.spelled_text (f : Formula) : ∀ k ≤ f.level, Spelled k f f.text.toList := by
  induction f with
  | integer value fits =>
    intro k _
    rw [text, Nat.toList_repr]
    exact .integer
  | named name plain => exact fun k _ => .named
  | apply op left right ihl ihr =>
    have hl : Spelled op.level left (bracketed (left.level < op.level) left.text).toList := by
      unfold bracketed
      split
      · simpa using Spelled.parentheses (ihl 0 (Nat.zero_le _))
      · next h => exact ihl _ (by simpa using h)
    have hr : Spelled (op.level + 1) right
        (bracketed (right.level ≤ op.level) right.text).toList := by
      unfold bracketed
      split
      · simpa using Spelled.parentheses (ihr 0 (Nat.zero_le _))
      · next h => exact ihr _ (by simpa [Nat.succ_le_iff] using h)
    intro k hk
    simpa [text] using Spelled.apply hk hl hr

theorem Formula.spelled_fullText (f : Formula) : ∀ k, Spelled k f f.fullText.toList := by
  induction f with
  | integer value fits =>
    intro k
    rw [fullText, Nat.toList_repr]
    exact .integer
  | named name plain => exact fun k => .named
  | apply op left right ihl ihr =>
    intro k
    have h : Spelled 0 (.apply op left right) _ := .apply (Nat.zero_le _) (ihl _) (ihr _)
    simpa [fullText] using h.parentheses (k := k)

/-- The characters do not continue an operand before them. -/
def EndsOperand (rest : List Char) : Prop := ∀ c, rest.head? = some c → c = ' ' ∨ c = ')'

theorem EndsOperand.endsName {rest : List Char} (h : EndsOperand rest) : Lexeme.EndsName rest := by
  intro c hc
  rcases h c hc with rfl | rfl <;> decide

theorem EndsOperand.endsNumber {rest : List Char} (h : EndsOperand rest) :
    Lexeme.EndsNumber rest := by
  refine ⟨fun c hc => (h.endsName c hc).1, ?_⟩
  cases rest with
  | nil => rfl
  | cons c rest => rcases h c rfl with rfl | rfl <;> rfl

theorem firstToken?_plainName {name : String} (h : isPlainName name = true) {rest : List Char}
    (hrest : EndsOperand rest) :
    Lexeme.firstToken? (name.toList ++ rest) = some (.bare .identifier name false, rest) := by
  cases hname : name.toList with
  | nil => simp [isPlainName, hname] at h
  | cons c cs =>
    simp only [isPlainName, hname, List.head?_cons, Option.any_some, List.all_cons,
      Bool.and_eq_true, List.all_eq_true, Bool.or_eq_true, beq_iff_eq] at h
    obtain ⟨⟨hc, -, hcs⟩, -⟩ := h
    have hupper : c.isUpper = false := by
      rcases hc with hc | rfl
      · rw [Lexeme.isLower_iff_toNat] at hc
        rw [Bool.eq_false_iff, ne_eq, Lexeme.isUpper_iff_toNat]
        omega
      · decide
    have hstart : Lexeme.isNameStart c = true := by
      rcases hc with hc | rfl
      · exact Lexeme.isNameStart_of_isLower hc
      · decide
    have hrestName : ∀ d ∈ cs, Lexeme.isNameChar d = true := by
      intro d hd
      rcases hcs d hd with (hlower | rfl) | hdigit
      · exact Lexeme.isNameChar_of_start (Lexeme.isNameStart_of_isLower hlower)
      · decide
      · exact Lexeme.isNameChar_of_isDigit hdigit
    rw [Lexeme.firstToken?_name hstart hrestName hrest.endsName, hupper, ← hname]
    simp

theorem Phrase.behindBlanks {k : Nat} {f : Formula} {ts : List Token} (h : Phrase k f ts) :
    ∃ t tl, ts = t :: tl ∧ Phrase k f (t.behindBlanks :: tl) := by
  induction h with
  | integer hv => exact ⟨_, _, rfl, .integer hv⟩
  | named => exact ⟨_, _, rfl, .named⟩
  | apply _ hk _ hr ihl _ =>
    obtain ⟨t, tl, rfl, hblank⟩ := ihl
    exact ⟨t, _, rfl, .apply _ hk hblank hr⟩
  | parentheses _ closing h _ => exact ⟨_, _, rfl, .parentheses true closing h⟩

/-- What spells a formula reads as a phrase of it. -/
theorem Spelled.reads {k : Nat} {f : Formula} {cs : List Char} (h : Spelled k f cs) :
    ∀ {rest : List Char} {us : List Token}, EndsOperand rest → Reads rest us →
      ∃ ts, Phrase k f ts ∧ Reads (cs ++ rest) (ts ++ us) := by
  induction h with
  | @integer k value fits =>
    intro rest us hrest hr
    have hf := Lexeme.firstToken?_number Nat.toDigits_ne_nil
      (fun d (hd : d ∈ Nat.toDigits 10 value) => Text.isDigit_of_mem_toDigits hd) hrest.endsNumber
    exact ⟨_, .integer (by simp), .token hf hr⟩
  | named =>
    intro rest us hrest hr
    exact ⟨_, .named, .token (firstToken?_plainName ‹_› hrest) hr⟩
  | @apply k op left right ls rs hk _ _ ihl ihr =>
    intro rest us hrest hr
    obtain ⟨rts, hright, hr⟩ := ihr hrest hr
    obtain ⟨t, tl, rfl, hblank⟩ := hright.behindBlanks
    have hop : Reads (' ' :: (op.text.toList ++ ' ' :: (rs ++ rest)))
        (operatorToken op.text true :: t.behindBlanks :: (tl ++ us)) :=
      (Reads.token (op.firstToken?_text _) hr.space).space
    obtain ⟨lts, hleft, hr⟩ := ihl (fun c hc => by cases hc; exact .inl rfl) hop
    refine ⟨_, .apply true hk hleft hblank, ?_⟩
    simpa using hr
  | parentheses _ ih =>
    intro rest us hrest hr
    have hclose : Lexeme.firstToken? (')' :: rest) = some (.bare .separator ")" false, rest) :=
      Lexeme.firstToken?_separator (by decide) (by decide)
        (Lexeme.operator?_eq_none (by decide) (by decide) _)
    obtain ⟨ts, hts, hr⟩ := ih (fun c hc => by cases hc; exact .inr rfl) (.token hclose hr)
    have hopen : ∀ more, Lexeme.firstToken? ('(' :: more) =
        some (.bare .separator "(" false, more) := fun more =>
      Lexeme.firstToken?_separator (by decide) (by decide)
        (Lexeme.operator?_eq_none (by decide) (by decide) _)
    refine ⟨_, .parentheses false false hts, ?_⟩
    simpa using Reads.token (hopen _) hr

/-! ## From tokens to trees -/

/-- Whether a token can begin an operand, other than by a sign. -/
def opensOperand (t : Token) : Bool :=
  !(isSign t || t.isTerminator || t.isSeparator ")" || t.isKeyword "not")

theorem Phrase.opens {k : Nat} {f : Formula} {ts : List Token} (h : Phrase k f ts) :
    ∃ t tl, ts = t :: tl ∧ opensOperand t = true := by
  induction h with
  | integer => exact ⟨_, _, rfl, rfl⟩
  | @named k name plain spaced =>
    refine ⟨_, _, rfl, ?_⟩
    have hnot : name ≠ "not" := by
      rintro rfl
      exact absurd plain (by decide)
    simp [opensOperand, isSign, Token.bare, Token.isOperator, Token.isTerminator, Token.isSeparator,
      Token.isKeyword, hnot]
  | apply _ _ _ _ ihl _ =>
    obtain ⟨t, tl, rfl, ht⟩ := ihl
    exact ⟨t, _, rfl, ht⟩
  | parentheses => exact ⟨_, _, rfl, rfl⟩

/-- A phrase is read on its level. -/
theorem Phrase.reached {k : Nat} {f : Formula} {ts : List Token} (h : Phrase k f ts) :
    ∀ {n : Nat} {us : List Token}, 8 * ts.length ≤ n → Reached n k ts us f.Matches := by
  induction h with
  | @integer k value fits text spaced hv =>
    intro n us hn
    obtain ⟨m, rfl⟩ : ∃ m, n = m + 2 := ⟨n - 2, by simp at hn; omega⟩
    refine .of_operand (Nat.succ_pos _) fun hend => ?_
    have hfits : int64? (Text.decimalValue text.toList : Int) = some (.ofInt value) := by
      rw [hv]
      exact int64?_of_fits (by omega) (by omega)
    exact .operand (Nat.succ_pos _) rfl (primary_integer rfl hfits fun _ => rfl) hend
  | @named k name plain spaced =>
    intro n us hn
    obtain ⟨m, rfl⟩ : ∃ m, n = m + 2 := ⟨n - 2, by simp at hn; omega⟩
    refine .of_operand (Nat.succ_pos _) fun hend => ?_
    have hkey : name ∉ keywords := by
      simp only [isPlainName, Bool.and_eq_true] at plain
      simpa using plain.2
    exact .operand (Nat.succ_pos _) rfl (primary_name rfl hkey hend fun _ => rfl) hend
  | @apply k op left right ls rs spaced hk _ hr ihl ihr =>
    intro n us hn
    simp only [List.length_append, List.length_cons] at hn
    have hline : ∀ t, (rs ++ us).head? = some t → t.kind ≠ .endOfLine := by
      obtain ⟨t, tl, rfl, ht⟩ := hr.opens
      intro t' ht' hk
      cases ht'
      simp [opensOperand, Token.isTerminator, hk] at ht
    exact .operator hk (by omega) (ihl (by omega)) (ihr (by omega)) hline
  | @parentheses k f ts opening closing h ih =>
    intro n us hn
    simp only [List.length_append, List.length_cons, List.length_nil] at hn
    obtain ⟨m, rfl⟩ : ∃ m, n = m + 6 := ⟨n - 6, by omega⟩
    obtain ⟨t, tl, rfl, ht⟩ := h.opens
    simp only [opensOperand, Bool.not_eq_true', Bool.or_eq_false_iff] at ht
    refine .of_operand (Nat.succ_pos _) fun hend => ?_
    have hclose : Ends (.bare .separator ")" closing :: us) :=
      .cons (by cases closing <;> decide) us
    have hinner : Parses (Grammar.value (rules m) m)
        (t :: (tl ++ .bare .separator ")" closing :: us)) (.bare .separator ")" closing :: us)
        f.Matches := by
      rw [value_eq_layered]
      exact (ih (by omega)).1 (.of_ends hclose)
    rw [List.cons_append, List.append_assoc]
    exact .operand (Nat.succ_pos _) rfl (primary_parenthesized (Nat.succ_pos _) rfl rfl ht.1.1.2
      ht.1.2 (.rules_statement ht.2 hinner hclose)) hend

/-! ## Round trips -/

/-- What spells a formula, with any parentheses, is a program of just that formula. -/
theorem parse_of_spelled {f : Formula} {text : String} (h : Spelled 0 f text.toList)
    (source : SourceId) :
    ∃ node code, f.Matches node ∧ parse source (.ofText text) = (.program [node], code) := by
  obtain ⟨ts, hphrase, hreads⟩ := h.reads (fun c hc => by cases hc) Reads.nil
  rw [List.append_nil, List.append_nil] at hreads
  have hlen := hreads.length_le
  obtain ⟨t, tl, rfl, ht⟩ := hphrase.opens
  simp only [opensOperand, Bool.not_eq_true', Bool.or_eq_false_iff] at ht
  refine parse_of_parses ht.1.1.2 ht.2 hreads ?_
  have hbound : 8 * (t :: tl).length ≤ bound text.toList.length - 5 := by
    unfold bound
    omega
  rw [value_eq_layered, ← List.append_nil (t :: tl)]
  exact (hphrase.reached hbound).1 (.of_ends .nil)

/-- A formula is read back from its text, with the parentheses that it needs or with all of them, as
the one statement of a program. -/
theorem parse_text_and_fullText (f : Formula) (source : SourceId) :
    (∃ node code, f.Matches node ∧ parse source (.ofText f.text) = (.program [node], code)) ∧
      ∃ node code, f.Matches node ∧ parse source (.ofText f.fullText) = (.program [node], code) :=
  ⟨parse_of_spelled (f.spelled_text 0 (Nat.zero_le _)) source,
    parse_of_spelled (f.spelled_fullText 0) source⟩

end Spinel.Grammar
