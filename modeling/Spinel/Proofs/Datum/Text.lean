import Spinel.Heap.Description
import Spinel.Proofs.Text.Numeral
import Spinel.Proofs.Text.Quoted

/-!
# Data and how they are written

A `Datum` is what programs can write down without calling anything: immediate values other than
floats, strings, arrays and hashes, nested in any way. `Datum.text` is the way in which programs
show it, and `Datum.tokens` what that reads as (`Datum.reads`), provided that names and texts are
such that the lexer reads them back (`Datum.isPlain`).
-/

namespace Spinel

/-- A tree of data. -/
inductive Datum where
  | nil
  | bool (value : Bool)
  | int (value : Int64)
  | range (low high : Int64)
  | symbol (name : String)
  | str (text : String)
  | array (items : List Datum)
  | hash (entries : List (Datum × Datum))

namespace Datum

/-- Induction with a hypothesis for every item, key and value. -/
@[elab_as_elim]
theorem induction {P : Datum → Prop} (nil : P .nil) (bool : ∀ b, P (.bool b))
    (int : ∀ x, P (.int x)) (range : ∀ low high, P (.range low high))
    (symbol : ∀ name, P (.symbol name)) (str : ∀ text, P (.str text))
    (array : ∀ items, (∀ d ∈ items, P d) → P (.array items))
    (hash : ∀ entries, (∀ e ∈ entries, P e.1 ∧ P e.2) → P (.hash entries)) (d : Datum) : P d :=
  @Datum.rec P (fun items => ∀ d ∈ items, P d) (fun entries => ∀ e ∈ entries, P e.1 ∧ P e.2)
    (fun e => P e.1 ∧ P e.2) nil bool int range symbol str array hash (by simp)
    (fun _ _ hd hds => List.forall_mem_cons.2 ⟨hd, hds⟩) (by simp)
    (fun _ _ he hes => List.forall_mem_cons.2 ⟨he, hes⟩) (fun _ _ hk hd => ⟨hk, hd⟩) d

mutual

/-- Whether no hash occurs in it. -/
def isHashFree : Datum → Bool
  | .array items => allHashFree items
  | .hash _ => false
  | _ => true

def allHashFree : List Datum → Bool
  | [] => true
  | d :: ds => d.isHashFree && allHashFree ds

end

mutual

/-- Whether its symbols are ASCII names, its strings have no control characters that cannot be
written, and the keys of its hashes contain no hash. -/
def isPlain : Datum → Bool
  | .symbol name => Text.isAsciiName name
  | .str text => Text.isShowable text
  | .array items => allPlain items
  | .hash entries => allPlainPairs entries
  | _ => true

def allPlain : List Datum → Bool
  | [] => true
  | d :: ds => d.isPlain && allPlain ds

def allPlainPairs : List (Datum × Datum) → Bool
  | [] => true
  | (k, d) :: rest => k.isPlain && k.isHashFree && d.isPlain && allPlainPairs rest

end

mutual

/-- How programs show it. -/
def text : Datum → String
  | .nil => "nil"
  | .bool b => if b then "true" else "false"
  | .int x => toString x
  | .range low high => toString low ++ ".." ++ toString high
  | .symbol name => Text.symbolText name
  | .str s => Text.quoted s
  | .array items => "[" ++ commaJoined (texts items) ++ "]"
  | .hash entries => "\x7b" ++ commaJoined (pairTexts entries) ++ "\x7d"

def texts : List Datum → List String
  | [] => []
  | d :: ds => d.text :: texts ds

def pairTexts : List (Datum × Datum) → List String
  | [] => []
  | (k, d) :: rest => (k.text ++ "=>" ++ d.text) :: pairTexts rest

end

theorem allHashFree_iff {ds : List Datum} :
    allHashFree ds = true ↔ ∀ d ∈ ds, d.isHashFree = true := by
  induction ds with
  | nil => simp [allHashFree]
  | cons d ds ih => simp [allHashFree, ih]

theorem allPlain_iff {ds : List Datum} : allPlain ds = true ↔ ∀ d ∈ ds, d.isPlain = true := by
  induction ds with
  | nil => simp [allPlain]
  | cons d ds ih => simp [allPlain, ih]

theorem allPlainPairs_iff {es : List (Datum × Datum)} : allPlainPairs es = true ↔
    ∀ e ∈ es, e.1.isPlain = true ∧ e.1.isHashFree = true ∧ e.2.isPlain = true := by
  induction es with
  | nil => simp [allPlainPairs]
  | cons e es ih =>
    obtain ⟨k, d⟩ := e
    simp [allPlainPairs, ih, and_assoc]

theorem texts_eq_map (ds : List Datum) : texts ds = ds.map text := by
  induction ds with
  | nil => rfl
  | cons d ds ih => rw [texts, ih, List.map_cons]

theorem pairTexts_eq_map (es : List (Datum × Datum)) :
    pairTexts es = es.map fun e => e.1.text ++ "=>" ++ e.2.text := by
  induction es with
  | nil => rfl
  | cons e es ih =>
    obtain ⟨k, d⟩ := e
    rw [pairTexts, ih, List.map_cons]

/-! ## Tokens -/

/-- The tokens of an integer. -/
def intTokens (spaced : Bool) (x : Int64) : List Token :=
  if x.toInt < 0 then
    [.bare .operator "-" spaced, .bare .integer x.toInt.natAbs.repr false]
  else [.bare .integer x.toInt.natAbs.repr spaced]

/-- Lists of tokens, each a function of whether blanks stand before it, with commas and blanks
between them. -/
def separated : (spaced : Bool) → List (Bool → List Token) → List Token
  | _, [] => []
  | spaced, [ts] => ts spaced
  | spaced, ts :: rest => ts spaced ++ .bare .separator "," false :: separated true rest

mutual

/-- What its text reads as, with blanks before it or not. -/
def tokens : Datum → (spaced : Bool) → List Token
  | .nil, spaced => [.bare .identifier "nil" spaced]
  | .bool b, spaced => [.bare .identifier (if b then "true" else "false") spaced]
  | .int x, spaced => intTokens spaced x
  | .range low high, spaced =>
    intTokens spaced low ++ .bare .operator ".." false :: intTokens false high
  | .symbol name, spaced => [.bare .symbol name spaced]
  | .str s, spaced => [.bare .string s spaced]
  | .array items, spaced =>
    .bare .separator "[" spaced :: (separated false (itemTokens items) ++
      [.bare .separator "]" false])
  | .hash entries, spaced =>
    .bare .separator "\x7b" spaced :: (separated false (pairTokens entries) ++
      [.bare .separator "\x7d" false])

def itemTokens : List Datum → List (Bool → List Token)
  | [] => []
  | d :: ds => d.tokens :: itemTokens ds

def pairTokens : List (Datum × Datum) → List (Bool → List Token)
  | [] => []
  | (k, d) :: rest =>
    (fun spaced => k.tokens spaced ++ .bare .operator "=>" false :: d.tokens false) ::
      pairTokens rest

end

theorem itemTokens_eq_map (ds : List Datum) : itemTokens ds = ds.map tokens := by
  induction ds with
  | nil => rfl
  | cons d ds ih => rw [itemTokens, ih, List.map_cons]

/-- The tokens of a key and its value. -/
def entryTokens (e : Datum × Datum) (spaced : Bool) : List Token :=
  e.1.tokens spaced ++ .bare .operator "=>" false :: e.2.tokens false

theorem pairTokens_eq_map (es : List (Datum × Datum)) : pairTokens es = es.map entryTokens := by
  induction es with
  | nil => rfl
  | cons e es ih =>
    obtain ⟨k, d⟩ := e
    rw [pairTokens, ih, List.map_cons]
    rfl

/-! ## Reading -/

/-- The characters do not continue data before them. -/
def EndsDatum (rest : List Char) : Prop :=
  rest = [] ∨ (∃ more, rest = '=' :: '>' :: more) ∨
    ∃ c more, rest = c :: more ∧ c ∈ [',', ']', '\x7d']

theorem EndsDatum.endsName {rest : List Char} (h : EndsDatum rest) : Lexeme.EndsName rest := by
  intro c hc
  rcases h with rfl | ⟨more, rfl⟩ | ⟨c, more, rfl, hmem⟩
  · cases hc
  · cases hc
    decide
  · cases hc
    simp only [List.mem_cons, List.not_mem_nil, or_false] at hmem
    rcases hmem with rfl | rfl | rfl <;> decide

theorem EndsDatum.endsNumber {rest : List Char} (h : EndsDatum rest) : Lexeme.EndsNumber rest := by
  refine ⟨fun c hc => (h.endsName c hc).1, ?_⟩
  rcases h with rfl | ⟨more, rfl⟩ | ⟨c, more, rfl, hmem⟩
  · rfl
  · rfl
  · unfold Lexeme.fraction
    split
    · next heq => cases heq; exact absurd hmem (by decide)
    · rfl

theorem EndsDatum.endsSymbol {rest : List Char} (h : EndsDatum rest) : Text.EndsSymbol rest := by
  refine ⟨h.endsName, fun name => ?_⟩
  rcases h with rfl | ⟨more, rfl⟩ | ⟨c, more, rfl, hmem⟩
  · rfl
  · rfl
  · unfold Lexeme.setterName
    split
    · next heq => cases heq; exact absurd hmem (by decide)
    · next heq => cases heq; exact absurd hmem (by decide)
    · rfl

/-- A bracket or a comma is a token of its own. -/
theorem firstToken?_mark (c : Char) (hc : c ∈ ['[', ']', '\x7b', '\x7d', ',']) (rest : List Char) :
    Lexeme.firstToken? (c :: rest) = some (.bare .separator (String.ofList [c]) false, rest) := by
  simp only [List.mem_cons, List.not_mem_nil, or_false] at hc
  rcases hc with rfl | rfl | rfl | rfl | rfl <;>
    exact Lexeme.firstToken?_separator (by decide) (by decide)
      (Lexeme.operator?_eq_none (by decide) (by decide) rest)

/-- Characters that read as the tokens, whatever follows, and as the same behind a blank. -/
structure Spells (cs : List Char) (ts : Bool → List Token) : Prop where
  reads : ∀ {rest us}, EndsDatum rest → Reads rest us → Reads (cs ++ rest) (ts false ++ us)
  blank : ∃ t tl, ts false = t :: tl ∧ ts true = t.behindBlanks :: tl

namespace Spells

variable {cs ds : List Char} {ts us : Bool → List Token}

theorem reads_space (h : Spells cs ts) {rest : List Char} {us : List Token} (hrest : EndsDatum rest)
    (hr : Reads rest us) : Reads (' ' :: (cs ++ rest)) (ts true ++ us) := by
  obtain ⟨t, tl, hfalse, htrue⟩ := h.blank
  have hreads := h.reads hrest hr
  rw [hfalse] at hreads
  rw [htrue]
  exact hreads.space

theorem blank_append (h : Spells cs ts) (us : List Token) :
    ∃ t tl, ts false ++ us = t :: tl ∧ ts true ++ us = t.behindBlanks :: tl := by
  obtain ⟨t, tl, hfalse, htrue⟩ := h.blank
  exact ⟨t, tl ++ us, by rw [hfalse]; rfl, by rw [htrue]; rfl⟩

theorem token {kind : TokenKind} {text : String} (h : ∀ rest, EndsDatum rest →
    Lexeme.firstToken? (cs ++ rest) = some (.bare kind text false, rest)) :
    Spells cs fun spaced => [.bare kind text spaced] where
  reads hrest hr := .token (h _ hrest) hr
  blank := ⟨_, _, rfl, rfl⟩

theorem word (c : Char) (cs : List Char) (hc : Lexeme.isNameStart c = true)
    (hcs : cs.all Lexeme.isNameChar = true) (hupper : c.isUpper = false) :
    Spells (c :: cs) fun spaced => [.bare .identifier (String.ofList (c :: cs)) spaced] := by
  refine .token fun rest hrest => ?_
  rw [Lexeme.firstToken?_name hc (List.all_eq_true.1 hcs) hrest.endsName, hupper]
  rfl

theorem separated {α : Type} {f : α → String} {g : α → Bool → List Token} {a : α} {as : List α}
    (h : ∀ b ∈ a :: as, Spells (f b).toList (g b)) :
    Spells (commaJoined ((a :: as).map f)).toList
      fun spaced => Datum.separated spaced ((a :: as).map g) := by
  induction as generalizing a with
  | nil =>
    have ha := h a List.mem_cons_self
    simpa [commaJoined, String.toList_intercalate, Datum.separated] using ha
  | cons b as ih =>
    have ha := h a List.mem_cons_self
    have hb := ih fun x hx => h x (List.mem_cons_of_mem _ hx)
    have hchars : (commaJoined ((a :: b :: as).map f)).toList =
        (f a).toList ++ ',' :: ' ' :: (commaJoined ((b :: as).map f)).toList := by
      simp [commaJoined, String.toList_intercalate, List.intercalate]
    refine ⟨fun {rest us} hrest hr => ?_, ha.blank_append _⟩
    have hcomma := Reads.token (firstToken?_mark ',' (by decide) _) (hb.reads_space hrest hr)
    have hends : EndsDatum (',' :: ' ' :: ((commaJoined ((b :: as).map f)).toList ++ rest)) :=
      .inr (.inr ⟨_, _, rfl, by decide⟩)
    rw [hchars]
    simpa [Datum.separated] using ha.reads hends hcomma

theorem bracketed {α : Type} {f : α → String} {g : α → Bool → List Token} {as : List α}
    (opening closing : Char) (hopen : opening ∈ ['[', '\x7b']) (hclose : closing ∈ [']', '\x7d'])
    (h : ∀ a ∈ as, Spells (f a).toList (g a)) :
    Spells (opening :: ((commaJoined (as.map f)).toList ++ [closing])) fun spaced =>
      .bare .separator (String.ofList [opening]) spaced :: (Datum.separated false (as.map g) ++
        [.bare .separator (String.ofList [closing]) false]) where
  reads {rest us} _ hr := by
    have hlast : Reads (closing :: rest) (.bare .separator (String.ofList [closing]) false :: us) :=
      .token (firstToken?_mark closing (by revert hclose; simp; grind) rest) hr
    have hends : EndsDatum (closing :: rest) :=
      .inr (.inr ⟨closing, rest, rfl, List.mem_cons_of_mem _ hclose⟩)
    have hparts : Reads ((commaJoined (as.map f)).toList ++ closing :: rest)
        (Datum.separated false (as.map g) ++
          .bare .separator (String.ofList [closing]) false :: us) := by
      cases as with
      | nil => exact hlast
      | cons a as => exact (separated h).reads hends hlast
    have hfirst := Reads.token (firstToken?_mark opening (by revert hopen; simp; grind) _) hparts
    simpa using hfirst
  blank := ⟨_, _, rfl, rfl⟩

theorem arrow (h : Spells cs ts) (hd : Spells ds us) :
    Spells (cs ++ '=' :: '>' :: ds) fun spaced =>
      ts spaced ++ .bare .operator "=>" false :: us false where
  reads {rest vs} hrest hr := by
    have harrow : Lexeme.firstToken? ('=' :: '>' :: (ds ++ rest)) =
        some (.bare .operator "=>" false, ds ++ rest) := by
      refine Lexeme.firstToken?_operator '=' ['>'] (by decide) ?_
      simp [Lexeme.operator?, Lexeme.operatorsOfThree, Lexeme.operatorsOfTwo, Lexeme.isSignName]
    have hends : EndsDatum ('=' :: '>' :: (ds ++ rest)) := .inr (.inl ⟨_, rfl⟩)
    simpa using h.reads hends (Reads.token harrow (hd.reads hrest hr))
  blank := h.blank_append _

end Spells

/-! ## Integers -/

theorem firstToken?_minus {cs : List Char} (hne : cs ≠ []) (hcs : ∀ d ∈ cs, d.isDigit = true)
    (rest : List Char) : Lexeme.firstToken? ('-' :: (cs ++ rest)) =
      some (.bare .operator "-" false, cs ++ rest) := by
  cases cs with
  | nil => exact absurd rfl hne
  | cons d cs =>
    have hd := hcs d List.mem_cons_self
    have hnot : ∀ c : Char, c.isDigit = false → d ≠ c := by
      rintro c hc rfl
      rw [hd] at hc
      cases hc
    refine Lexeme.firstToken?_operator '-' [] (by decide) ?_
    simp [Lexeme.operator?, Lexeme.operatorsOfThree, Lexeme.operatorsOfTwo, Lexeme.operatorsOfOne,
      hnot '>' rfl, hnot '=' rfl, hnot '@' rfl]

theorem firstToken?_dots {rest : List Char} (h : rest.head? ≠ some '.') :
    Lexeme.firstToken? ('.' :: '.' :: rest) = some (.bare .operator ".." false, rest) := by
  refine Lexeme.firstToken?_operator '.' ['.'] (by decide) ?_
  cases rest with
  | nil => rfl
  | cons c rest =>
    have hc : c ≠ '.' := fun e => h (by rw [e]; rfl)
    simp [Lexeme.operator?, Lexeme.operatorsOfThree, Lexeme.operatorsOfTwo, Lexeme.isSignName, hc]

/-- An integer before something that does not continue it. -/
theorem reads_int (x : Int64) {rest : List Char} {us : List Token} (hrest : Lexeme.EndsNumber rest)
    (hr : Reads rest us) : Reads ((toString x).toList ++ rest) (intTokens false x ++ us) := by
  have hdigits : Reads (Nat.toDigits 10 x.toInt.natAbs ++ rest)
      (.bare .integer x.toInt.natAbs.repr false :: us) := by
    have hf := Lexeme.firstToken?_number Nat.toDigits_ne_nil
      (fun d (hd : d ∈ Nat.toDigits 10 x.toInt.natAbs) => Text.isDigit_of_mem_toDigits hd) hrest
    exact .token hf hr
  rw [Text.toList_toString, intTokens]
  split
  · exact .token (firstToken?_minus Nat.toDigits_ne_nil
      (fun d hd => Text.isDigit_of_mem_toDigits hd) rest) hdigits
  · exact hdigits

theorem spells_int (x : Int64) : Spells (toString x).toList (intTokens · x) where
  reads hrest hr := reads_int x hrest.endsNumber hr
  blank := by
    unfold intTokens
    split <;> exact ⟨_, _, rfl, rfl⟩

theorem head?_toString_ne_dot (x : Int64) (rest : List Char) :
    ((toString x).toList ++ rest).head? ≠ some '.' := by
  rw [Text.toList_toString]
  split
  · simp
  · cases hd : Nat.toDigits 10 x.toInt.natAbs with
    | nil => exact absurd hd Nat.toDigits_ne_nil
    | cons d ds =>
      have hdigit : d.isDigit = true := Text.isDigit_of_mem_toDigits (hd ▸ List.mem_cons_self)
      simp only [List.nil_append, List.cons_append, List.head?_cons, ne_eq, Option.some.injEq]
      rintro rfl
      exact absurd hdigit (by decide)

theorem spells_range (low high : Int64) :
    Spells (toString low ++ ".." ++ toString high).toList ((Datum.range low high).tokens ·) where
  reads {rest us} hrest hr := by
    have hhigh := reads_int high hrest.endsNumber hr
    have hdots := Reads.token (firstToken?_dots (head?_toString_ne_dot high rest)) hhigh
    have hends : Lexeme.EndsNumber ('.' :: '.' :: ((toString high).toList ++ rest)) :=
      ⟨fun c hc => by cases hc; rfl, rfl⟩
    simpa [tokens] using reads_int low hends hdots
  blank := by
    unfold tokens
    exact (spells_int low).blank_append _

/-- All data are read back as their tokens. -/
theorem spells_text (d : Datum) (h : d.isPlain = true) : Spells d.text.toList d.tokens := by
  induction d using Datum.induction with
  | nil => exact .word 'n' ['i', 'l'] rfl rfl rfl
  | bool b => cases b with
    | false => exact .word 'f' ['a', 'l', 's', 'e'] rfl rfl rfl
    | true => exact .word 't' ['r', 'u', 'e'] rfl rfl rfl
  | int x => exact spells_int x
  | range low high => exact spells_range low high
  | symbol name => exact .token fun rest hrest => Text.firstToken?_symbolText h hrest.endsSymbol
  | str text => exact .token fun rest _ => Text.firstToken?_quoted h rest
  | array items ih =>
    rw [isPlain, allPlain_iff] at h
    have hitems := Spells.bracketed '[' ']' (by decide) (by decide) fun d hd => ih d hd (h d hd)
    have htokens : (Datum.array items).tokens = fun spaced => .bare .separator "[" spaced ::
        (separated false (items.map tokens) ++ [.bare .separator "]" false]) := by
      funext spaced
      rw [tokens, itemTokens_eq_map]
    rw [htokens, text, texts_eq_map]
    simpa using hitems
  | hash entries ih =>
    rw [isPlain, allPlainPairs_iff] at h
    have hentry : ∀ e ∈ entries,
        Spells (e.1.text ++ "=>" ++ e.2.text).toList (entryTokens e) := fun e he => by
      have hchars : (e.1.text ++ "=>" ++ e.2.text).toList =
          e.1.text.toList ++ '=' :: '>' :: e.2.text.toList := by simp
      rw [hchars]
      exact ((ih e he).1 (h e he).1).arrow ((ih e he).2 (h e he).2.2)
    have hpairs := Spells.bracketed '\x7b' '\x7d' (by decide) (by decide) hentry
    have htokens : (Datum.hash entries).tokens = fun spaced => .bare .separator "\x7b" spaced ::
        (separated false (entries.map entryTokens) ++ [.bare .separator "\x7d" false]) := by
      funext spaced
      rw [tokens, pairTokens_eq_map]
    rw [htokens, text, pairTexts_eq_map]
    simpa using hpairs

end Datum

end Spinel
