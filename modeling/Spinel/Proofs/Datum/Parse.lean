import Spinel.Proofs.Datum.Text
import Spinel.Proofs.Grammar.Operators

/-!
# Data are parsed back

The tokens of a datum are read as the nodes of a literal that stands for it (`Datum.Matches`), so
its text is a program of that one literal (`Datum.parse_text`).
-/

namespace Spinel.Datum

open Grammar

mutual

/-- The form is a literal that stands for the datum. -/
def Matches : Datum → Form → Prop
  | .nil, form => form = .nil
  | .bool b, form => form = .boolean b
  | .int x, form => form = .integer x
  | .range low high, form =>
    ∃ l h : Node, l.form = .integer low ∧ h.form = .integer high ∧ form = .range l h false
  | .symbol name, form => form = .symbol name
  | .str s, form => form = .str s
  | .array items, form => ∃ nodes, AllMatch items nodes ∧ form = .array nodes
  | .hash entries, form => ∃ pairs, PairsMatch entries pairs ∧ form = .hash pairs

def AllMatch : List Datum → List Node → Prop
  | [], nodes => nodes = []
  | d :: ds, nodes => ∃ node rest, d.Matches node.form ∧ AllMatch ds rest ∧ nodes = node :: rest

def PairsMatch : List (Datum × Datum) → List (Node × Node) → Prop
  | [], pairs => pairs = []
  | (k, d) :: es, pairs => ∃ key value rest, k.Matches key.form ∧ d.Matches value.form ∧
      PairsMatch es rest ∧ pairs = (key, value) :: rest

end

/-! ## Tokens of data -/

/-- Whether a token can begin a datum that stands among others. -/
def opensDatum (t : Token) : Bool :=
  !(t.isTerminator || t.isKeyword "not" || t.isSeparator "]" || t.isSeparator "\x7d")

theorem opensDatum_iff {t : Token} : opensDatum t = true ↔ (t.kind == .endOfLine) = false ∧
    t.isSeparator ";" = false ∧ t.isKeyword "not" = false ∧ t.isSeparator "]" = false ∧
      t.isSeparator "\x7d" = false := by
  simp only [opensDatum, Token.isTerminator, Bool.not_eq_true', Bool.or_eq_false_iff, and_assoc]

theorem tokens_opens (d : Datum) (spaced : Bool) :
    ∃ t tl, d.tokens spaced = t :: tl ∧ opensDatum t = true := by
  cases d with
  | int x =>
    unfold tokens intTokens
    split <;> exact ⟨_, _, rfl, rfl⟩
  | range low high =>
    unfold tokens intTokens
    split <;> exact ⟨_, _, rfl, rfl⟩
  | bool b => cases b <;> exact ⟨_, _, rfl, rfl⟩
  | nil => exact ⟨_, _, rfl, rfl⟩
  | symbol name => exact ⟨_, _, rfl, rfl⟩
  | str s => exact ⟨_, _, rfl, rfl⟩
  | array items => exact ⟨_, _, rfl, rfl⟩
  | hash entries => exact ⟨_, _, rfl, rfl⟩

@[simp] theorem length_intTokens (spaced : Bool) (x : Int64) :
    (intTokens spaced x).length = (intTokens false x).length := by
  unfold intTokens
  split <;> rfl

/-- Blanks do not add to the tokens. -/
theorem length_tokens (d : Datum) (spaced : Bool) :
    (d.tokens spaced).length = (d.tokens false).length := by
  cases d <;> simp [tokens]

/-- Each part and the number of parts are bounded by the tokens of all of them. -/
theorem length_le_separated {α : Type} {g : α → Bool → List Token}
    (hg : ∀ a spaced, (g a spaced).length = (g a false).length ∧ 0 < (g a false).length)
    (as : List α) (spaced : Bool) :
    (∀ a ∈ as, (g a false).length ≤ (separated spaced (as.map g)).length) ∧
      as.length ≤ (separated spaced (as.map g)).length := by
  induction as generalizing spaced with
  | nil => simp
  | cons a as ih =>
    cases as with
    | nil =>
      simp only [List.map_cons, List.map_nil, separated, (hg a spaced).1, List.mem_singleton,
        forall_eq, List.length_cons, List.length_nil]
      exact ⟨Nat.le_refl _, (hg a spaced).2⟩
    | cons b as =>
      obtain ⟨hle, hlen⟩ := ih true
      have hcons : (separated spaced ((a :: b :: as).map g)).length =
          (g a false).length + 1 + (separated true ((b :: as).map g)).length := by
        simp [separated, (hg a spaced).1]
        omega
      rw [hcons]
      refine ⟨fun c hc => ?_, ?_⟩
      · rcases List.mem_cons.1 hc with rfl | hc
        · omega
        · exact Nat.le_trans (hle c hc) (Nat.le_add_left _ _)
      · rw [List.length_cons]
        omega

/-! ## Leaves -/

section Leaves

variable {r : Rules} {n : Nat} {t : Token} {us : List Token}

/-- An integer is an operand, its sign included. -/
theorem operand_int (x : Int64) (spaced : Bool) (hn : 0 < n) (hend : EndsTerm us) :
    Parses (operand r n) (intTokens spaced x ++ us) us (fun node => node.form = .integer x) := by
  unfold intTokens
  split
  · next hneg =>
    have hvalue : -(x.toInt.natAbs : Int) = x.toInt := by omega
    refine .nextRequired fun span => .nextRequired fun span' => ?_
    have hnum : number ((Token.bare .integer x.toInt.natAbs.repr false).placed span') true =
        pure (.integer x) := by
      refine number_of_fits rfl ?_
      rw [if_pos rfl, Token.placed_text, Token.bare, Nat.toList_repr, Text.decimalValue_toDigits,
        hvalue, int64?_toInt]
    simp only [Token.placed_spaced, Token.placed_kind, hnum, pure_bind]
    exact chain_stop hn hend rfl
  · next hneg =>
    have hvalue : (x.toInt.natAbs : Int) = x.toInt := by omega
    have hfits : int64? (Text.decimalValue x.toInt.natAbs.repr.toList : Int) = some x := by
      rw [Nat.toList_repr, Text.decimalValue_toDigits, hvalue, int64?_toInt]
    exact .operand hn rfl (primary_integer rfl hfits fun _ => rfl) hend

theorem primary_symbol (hk : t.kind = .symbol) :
    Parses (primary r n) (t :: us) us (fun node => node.form = .symbol t.text) := by
  refine .nextRequired fun span => ?_
  simp only [Token.placed_kind, hk]
  exact .refl rfl

theorem primary_string (hk : t.kind = .string) :
    Parses (primary r n) (t :: us) us (fun node => node.form = .str t.text) := by
  refine .nextRequired fun span => ?_
  simp only [Token.placed_kind, hk]
  exact .refl rfl

theorem primary_word {form : Form} (hk : t.kind = .identifier)
    (hw : ∀ span, word r n (t.placed span) = pure ⟨span, form⟩) :
    Parses (primary r n) (t :: us) us (fun node => node.form = form) := by
  refine .nextRequired fun span => ?_
  simp only [Token.placed_kind, hk, hw]
  exact .refl rfl

end Leaves

/-! ## Lists -/

section Lists

variable {r : Rules} {n : Nat} {us : List Token}

/-- A datum is read where items, keys and values stand. -/
def ReadAmong (r : Rules) (d : Datum) : Prop :=
  ∀ (spaced : Bool) (us : List Token), Ends us →
    Parses (r .negation) (d.tokens spaced ++ us) us (fun node => d.Matches node.form)

theorem ReadAmong.of_value {d : Datum} (h : ∀ (spaced : Bool) (us : List Token), Ends us →
    Parses (value (rules n) n) (d.tokens spaced ++ us) us (fun node => d.Matches node.form)) :
    ReadAmong (rules (n + 3)) d := by
  intro spaced us hend
  obtain ⟨t, tl, htokens, ht⟩ := d.tokens_opens spaced
  have h := h spaced us hend
  rw [htokens] at h ⊢
  exact .rules_negation (opensDatum_iff.1 ht).2.2.1 h hend

theorem separated_cons {α : Type} (g : α → Bool → List Token) (a b : α) (as : List α)
    (spaced : Bool) : separated spaced ((a :: b :: as).map g) =
      g a spaced ++ .bare .separator "," false :: separated true ((b :: as).map g) := rfl

/-- What begins with a datum begins with none of the tokens that end lists or lines. -/
theorem head?_tokens_append (d : Datum) (spaced : Bool) (us : List Token) :
    ∀ t, (d.tokens spaced ++ us).head? = some t → opensDatum t = true := by
  obtain ⟨t, tl, htokens, ht⟩ := d.tokens_opens spaced
  rw [htokens]
  rintro t' ⟨⟩
  exact ht

theorem head?_separated (d : Datum) (ds : List Datum) (spaced : Bool) (us : List Token) :
    ∀ t, (separated spaced ((d :: ds).map tokens) ++ us).head? = some t → opensDatum t = true := by
  cases ds with
  | nil => exact d.head?_tokens_append spaced us
  | cons e ds =>
    rw [separated_cons, List.append_assoc]
    exact d.head?_tokens_append spaced _

theorem itemsUntil_parses {d : Datum} {ds : List Datum} {spaced : Bool} (hn : (d :: ds).length < n)
    (h : ∀ a ∈ d :: ds, ReadAmong r a) :
    Parses (itemsUntil r "]" n) (separated spaced ((d :: ds).map tokens) ++
      .bare .separator "]" false :: us) us (AllMatch (d :: ds)) := by
  induction ds generalizing d spaced n with
  | nil =>
    obtain ⟨n, rfl⟩ : ∃ m, n = m + 1 := ⟨n - 1, by simp at hn; omega⟩
    rw [itemsUntil]
    refine .bind (h d List.mem_cons_self _ _ (.cons rfl us)) fun node hnode => ?_
    refine .skipWhile (by simp at hn; omega) (fun t ht => by cases ht; exact fun _ => rfl) ?_
    refine .next fun span => ?_
    exact .refl ⟨node, [], hnode, rfl, rfl⟩
  | cons e ds ih =>
    obtain ⟨n, rfl⟩ : ∃ m, n = m + 1 := ⟨n - 1, by simp at hn; omega⟩
    rw [itemsUntil, separated_cons, List.append_assoc]
    refine .bind (h d List.mem_cons_self _ _ (.cons rfl _)) fun node hnode => ?_
    have hpos : 0 < n := by simp at hn; omega
    have hhead := head?_separated e ds true (.bare .separator "]" false :: us)
    refine .skipWhile hpos (fun t ht => by cases ht; exact fun _ => rfl) (.next fun span => ?_)
    refine .skipWhile hpos (fun t ht span => ?_) (.accept_false (fun t ht span => ?_) ?_)
    · exact (opensDatum_iff.1 (hhead t ht)).1
    · exact (opensDatum_iff.1 (hhead t ht)).2.2.2.1
    · refine .bind (ih (by simp at hn ⊢; omega) fun a ha => h a (List.mem_cons_of_mem _ ha))
        fun nodes hnodes => ?_
      exact .refl ⟨node, nodes, hnode, hnodes, rfl⟩

theorem head?_entries (e : Datum × Datum) (es : List (Datum × Datum)) (spaced : Bool)
    (us : List Token) : ∀ t, (separated spaced ((e :: es).map entryTokens) ++ us).head? = some t →
      opensDatum t = true := by
  cases es with
  | nil =>
    simp only [List.map_cons, List.map_nil, separated, entryTokens, List.append_assoc]
    exact e.1.head?_tokens_append spaced _
  | cons e' es =>
    rw [separated_cons, entryTokens, List.append_assoc, List.append_assoc]
    exact e.1.head?_tokens_append spaced _

/-- What stands behind an entry: another one, or the end of the hash. -/
def pairsBehind (r : Rules) (n : Nat) (entry : Node × Node) : Parse (List (Node × Node)) := do
  match ← next with
  | none => expected none (describe "\x7d")
  | some t =>
    if t.isSeparator "," then do
      skipNewlines n
      if ← acceptSeparator "\x7d" then pure [entry]
      else do
        let pairs ← pairsUntil r n
        pure (entry :: pairs)
    else if t.isSeparator "\x7d" then pure [entry]
    else expected (some t) (describe "\x7d")

/-- The first entry of a hash is read. -/
theorem pairsUntil_reaches {e : Datum × Datum} {spaced : Bool} (hn : 0 < n)
    (h : ReadAmong r e.1 ∧ ReadAmong r e.2) (hend : Ends us)
    (hline : ∀ t, us.head? = some t → (t.kind == .endOfLine) = false) :
    Reaches (pairsUntil r (n + 1)) (entryTokens e spaced ++ us) us (pairsBehind r n)
      (fun entry => e.1.Matches entry.1.form ∧ e.2.Matches entry.2.form) := by
  obtain ⟨k, d⟩ := e
  rw [pairsUntil, entryTokens, List.append_assoc]
  refine .bind (h.1 _ _ (.cons rfl _)) fun key hkey => ?_
  refine .skipWhile hn (fun t ht => by cases ht; exact fun _ => rfl) ?_
  refine .expect (fun _ => rfl) fun span => .skipWhile hn (fun t ht span => ?_) ?_
  · exact (opensDatum_iff.1 (d.head?_tokens_append _ _ t ht)).1
  refine .bind (h.2 _ _ hend) fun value hvalue => .skipWhile hn (fun t ht span => hline t ht) ?_
  exact fun c hc => ⟨(key, value), c, ⟨hkey, hvalue⟩, hc, rfl⟩

theorem pairsUntil_parses {e : Datum × Datum} {es : List (Datum × Datum)} {spaced : Bool}
    (hn : (e :: es).length < n) (h : ∀ a ∈ e :: es, ReadAmong r a.1 ∧ ReadAmong r a.2) :
    Parses (pairsUntil r n) (separated spaced ((e :: es).map entryTokens) ++
      .bare .separator "\x7d" false :: us) us (PairsMatch (e :: es)) := by
  induction es generalizing e spaced n with
  | nil =>
    obtain ⟨n, rfl⟩ : ∃ m, n = m + 1 := ⟨n - 1, by simp at hn; omega⟩
    have hpos : 0 < n := by simp at hn; omega
    refine (pairsUntil_reaches hpos (h e List.mem_cons_self) (.cons rfl us)
      (fun t ht => by cases ht; rfl)).trans fun entry hentry => .next fun span => ?_
    exact .refl ⟨entry.1, entry.2, [], hentry.1, hentry.2, rfl, rfl⟩
  | cons e' es ih =>
    obtain ⟨n, rfl⟩ : ∃ m, n = m + 1 := ⟨n - 1, by simp at hn; omega⟩
    have hpos : 0 < n := by simp at hn; omega
    have hhead := head?_entries e' es true (.bare .separator "\x7d" false :: us)
    rw [separated_cons, List.append_assoc, List.cons_append]
    refine (pairsUntil_reaches hpos (h e List.mem_cons_self) (.cons rfl _)
      (fun t ht => by cases ht; rfl)).trans fun entry hentry => .next fun span => ?_
    refine .skipWhile hpos (fun t ht span => ?_) (.accept_false (fun t ht span => ?_) ?_)
    · exact (opensDatum_iff.1 (hhead t ht)).1
    · exact (opensDatum_iff.1 (hhead t ht)).2.2.2.2
    · refine .bind (ih (by simp at hn ⊢; omega) fun a ha => h a (List.mem_cons_of_mem _ ha))
        fun pairs hpairs => ?_
      exact .refl ⟨entry.1, entry.2, pairs, hentry.1, hentry.2, hpairs, rfl⟩

theorem primary_array {items : List Datum} {spaced : Bool} (hn : items.length < n)
    (h : ∀ d ∈ items, ReadAmong r d) :
    Parses (primary r n) ((Datum.array items).tokens spaced ++ us) us
      (fun node => (Datum.array items).Matches node.form) := by
  have hlist : Parses (do
      skipNewlines n
      if ← acceptSeparator "]" then pure [] else itemsUntil r "]" n)
      (separated false (items.map tokens) ++ .bare .separator "]" false :: us) us
      (AllMatch items) := by
    cases items with
    | nil =>
      refine .skipWhile (by simp at hn; omega) (fun t ht => by cases ht; exact fun _ => rfl) ?_
      exact .accept_true (fun _ => rfl) (.refl rfl)
    | cons d ds =>
      have hhead := head?_separated d ds false (.bare .separator "]" false :: us)
      refine .skipWhile (by omega) (fun t ht span => ?_) (.accept_false (fun t ht span => ?_) ?_)
      · exact (opensDatum_iff.1 (hhead t ht)).1
      · exact (opensDatum_iff.1 (hhead t ht)).2.2.2.1
      · exact itemsUntil_parses hn h
  rw [tokens, itemTokens_eq_map, List.cons_append, List.append_assoc]
  refine .nextRequired fun span => ?_
  have hform : Parses (do return .array (← listUntil r n "]") : Parse Form)
      (separated false (items.map tokens) ++ .bare .separator "]" false :: us) us
      (Datum.array items).Matches :=
    .bind (.withNoDo hlist) fun nodes hnodes => .refl ⟨nodes, hnodes, rfl⟩
  exact .bind hform fun form h => .spanFrom fun span => .refl h

theorem primary_hash {entries : List (Datum × Datum)} {spaced : Bool} (hn : entries.length < n)
    (h : ∀ e ∈ entries, ReadAmong r e.1 ∧ ReadAmong r e.2) :
    Parses (primary r n) ((Datum.hash entries).tokens spaced ++ us) us
      (fun node => (Datum.hash entries).Matches node.form) := by
  have hlist : Parses (do
      skipNewlines n
      if ← acceptSeparator "\x7d" then pure [] else pairsUntil r n)
      (separated false (entries.map entryTokens) ++ .bare .separator "\x7d" false :: us) us
      (PairsMatch entries) := by
    cases entries with
    | nil =>
      refine .skipWhile (by simp at hn; omega) (fun t ht => by cases ht; exact fun _ => rfl) ?_
      exact .accept_true (fun _ => rfl) (.refl rfl)
    | cons e es =>
      have hhead := head?_entries e es false (.bare .separator "\x7d" false :: us)
      refine .skipWhile (by omega) (fun t ht span => ?_) (.accept_false (fun t ht span => ?_) ?_)
      · exact (opensDatum_iff.1 (hhead t ht)).1
      · exact (opensDatum_iff.1 (hhead t ht)).2.2.2.2
      · exact pairsUntil_parses hn h
  rw [tokens, pairTokens_eq_map, List.cons_append, List.append_assoc]
  refine .nextRequired fun span => ?_
  refine .bind (.withNoDo hlist) fun pairs hpairs => .spanFrom fun span => ?_
  exact .refl ⟨pairs, hpairs, rfl⟩

end Lists

/-! ## All data -/

theorem value_of_primary {n : Nat} {ts us : List Token} {Q : Node → Prop} (hend : Ends us)
    (hts : ∃ t tl, ts = t :: tl ∧ isSign t = false)
    (h : Parses (primary (rules (n + 1)) (n + 1)) (ts ++ us) us Q) :
    Parses (value (rules (n + 2)) (n + 2)) (ts ++ us) us Q := by
  obtain ⟨t, tl, rfl, ht⟩ := hts
  exact .value (Nat.succ_pos _) (.operand (Nat.succ_pos _) ht h hend.endsTerm) hend

/-- The operator between the bounds of a range. -/
def dots : Operator := ⟨2, "..", by decide⟩

/-- The bounds of a range are operands of its two dots. -/
theorem value_range (low high : Int64) {n : Nat} {us : List Token} {spaced : Bool}
    (hn : 8 ≤ n) (hend : Ends us) :
    Parses (value (rules n) n) ((Datum.range low high).tokens spaced ++ us) us
      (fun node => (Datum.range low high).Matches node.form) := by
  obtain ⟨n, rfl⟩ : ∃ m, n = m + 2 := ⟨n - 2, by omega⟩
  have hint : ∀ (x : Int64) (spaced : Bool) (k : Nat) (us : List Token),
      Reached (n + 2) k (intTokens spaced x) us (fun node => node.form = .integer x) :=
    fun x spaced k us => .of_operand (Nat.succ_pos _) fun hus =>
      operand_int x spaced (Nat.succ_pos _) hus
  have hlen : ∀ (x : Int64) (spaced : Bool), (intTokens spaced x).length ≤ 2 := fun x spaced => by
    unfold intTokens
    split <;> simp
  have hline : ∀ t, (intTokens false high ++ us).head? = some t → t.kind ≠ .endOfLine := by
    unfold intTokens
    split <;> (intro t ht; cases ht; simp [Token.bare])
  have hdots : Reached (n + 2) 0 (intTokens spaced low ++ operatorToken dots.text false ::
      intTokens false high) us _ :=
    .operator (Nat.zero_le _) (by have := hlen low spaced; have := hlen high false; omega)
      (hint _ _ _ _) (hint _ _ _ _) hline
  rw [value_eq_layered]
  refine (hdots.1 (.of_ends hend)).mono fun node h => ?_
  obtain ⟨l, r, hl, hr, hform⟩ := h
  exact ⟨l, r, hl, hr, hform⟩

theorem parses_value (d : Datum) : ∀ {n : Nat} (spaced : Bool) (us : List Token),
    8 * (d.tokens false).length ≤ n → Ends us →
      Parses (value (rules n) n) (d.tokens spaced ++ us) us (fun node => d.Matches node.form) := by
  -- Two levels of rules lead from an operand to a term, four from there to the parts of a list.
  have hfuel : ∀ {n k : Nat}, 8 * (k + 1) ≤ n → ∃ m, n = m + 2 := fun {n} {k} h =>
    ⟨n - 2, by omega⟩
  induction d using Datum.induction with
  | nil =>
    intro n spaced us hn hend
    obtain ⟨n, rfl⟩ := hfuel hn
    exact value_of_primary hend ⟨_, _, rfl, rfl⟩ (primary_word rfl fun _ => rfl)
  | bool b =>
    intro n spaced us hn hend
    obtain ⟨n, rfl⟩ := hfuel hn
    cases b <;> exact value_of_primary hend ⟨_, _, rfl, rfl⟩ (primary_word rfl fun _ => rfl)
  | int x =>
    intro n spaced us hn hend
    have : 0 < (intTokens false x).length := by unfold intTokens; split <;> simp
    obtain ⟨n, rfl⟩ : ∃ m, n = m + 2 := ⟨n - 2, by rw [tokens] at hn; omega⟩
    exact .value (Nat.succ_pos _) (operand_int x spaced (Nat.succ_pos _) hend.endsTerm) hend
  | range low high =>
    intro n spaced us hn hend
    refine value_range low high ?_ hend
    simp only [tokens, List.length_append, List.length_cons] at hn
    omega
  | symbol name =>
    intro n spaced us hn hend
    obtain ⟨n, rfl⟩ := hfuel hn
    exact value_of_primary hend ⟨_, _, rfl, rfl⟩ (primary_symbol rfl)
  | str s =>
    intro n spaced us hn hend
    obtain ⟨n, rfl⟩ := hfuel hn
    exact value_of_primary hend ⟨_, _, rfl, rfl⟩ (primary_string rfl)
  | array items ih =>
    intro n spaced us hn hend
    have hg : ∀ (d : Datum) spaced, (d.tokens spaced).length = (d.tokens false).length ∧
        0 < (d.tokens false).length := fun d spaced => by
      obtain ⟨t, tl, ht, -⟩ := d.tokens_opens false
      exact ⟨d.length_tokens spaced, by rw [ht]; exact Nat.succ_pos _⟩
    obtain ⟨hitems, hcount⟩ := length_le_separated hg items false
    simp only [tokens, itemTokens_eq_map, List.length_cons, List.length_append,
      List.length_nil] at hn
    obtain ⟨n, rfl⟩ : ∃ m, n = m + 4 := ⟨n - 4, by omega⟩
    refine value_of_primary hend ⟨_, _, rfl, rfl⟩ (primary_array (by omega) fun d hd => ?_)
    have := hitems d hd
    exact .of_value fun spaced us hend => ih d hd spaced us (by omega) hend
  | hash entries ih =>
    intro n spaced us hn hend
    have hg : ∀ (e : Datum × Datum) spaced, (entryTokens e spaced).length =
        (entryTokens e false).length ∧ 0 < (entryTokens e false).length := fun e spaced => by
      simp only [entryTokens, List.length_append, List.length_cons, e.1.length_tokens spaced,
        true_and]
      omega
    obtain ⟨hentries, hcount⟩ := length_le_separated hg entries false
    simp only [tokens, pairTokens_eq_map, List.length_cons, List.length_append,
      List.length_nil] at hn
    obtain ⟨n, rfl⟩ : ∃ m, n = m + 4 := ⟨n - 4, by omega⟩
    refine value_of_primary hend ⟨_, _, rfl, rfl⟩ (primary_hash (by omega) fun e he => ?_)
    have := hentries e he
    simp only [entryTokens, List.length_append, List.length_cons] at this
    exact ⟨.of_value fun spaced us hend => (ih e he).1 spaced us (by omega) hend,
      .of_value fun spaced us hend => (ih e he).2 spaced us (by omega) hend⟩

/-- The text of a datum is a program of the one literal that stands for it. -/
theorem parse_text {d : Datum} (h : d.isPlain = true) (source : SourceId) :
    ∃ node code, d.Matches node.form ∧ parse source (.ofText d.text) = (.program [node], code) := by
  have hreads : Reads d.text.toList (d.tokens false) := by
    simpa using (d.spells_text h).reads (.inl rfl) Reads.nil
  have hlen := hreads.length_le
  have hbound : 8 * (d.tokens false).length ≤ bound d.text.toList.length - 5 := by
    unfold bound
    omega
  have hvalue := d.parses_value false [] hbound .nil
  obtain ⟨t, tl, htokens, ht⟩ := d.tokens_opens false
  rw [htokens] at hreads hvalue
  rw [List.append_nil] at hvalue
  obtain ⟨hline, hsemi, hnot, -⟩ := opensDatum_iff.1 ht
  exact parse_of_parses (by rw [Token.isTerminator, hline, hsemi]; rfl) hnot hreads hvalue

end Spinel.Datum
