import Spinel.Proofs.Grammar.Arguments
import Spinel.Proofs.Grammar.Commands

/-!
# Trees fit the text that they were read from

In a tree that was read from a text, each node lies in the text and contains its children
(`Node.Nested`), the arguments of each call come from what is written, in order (`Form.Arranged`),
and each form is as the grammar makes it (`Form.Sound`). A node `Fits` between two offsets if all of
this holds of it and it lies between them. A rule gives a node that fits between where it begins and
where the cursor stands in the end, so what was read first ends before what is read next begins, and
a span that joins the two contains both (`fits_join`, `fits_spanned`). One statement for each
function of the grammar that gives nodes follows, in the order of the grammar's modules, and from
them by induction on the depth that the trees of every program fit (`fitsAll_of_parse`).
-/

namespace Spinel

/-! ## Nested trees -/

/-- The inner stretch lies inside the outer one. -/
def Span.Contains (outer inner : Span) : Prop :=
  outer.start.offset ≤ inner.start.offset ∧ inner.stop ≤ outer.stop

/-- All nodes of a tree have spans with the property, and each contains its children. -/
inductive Node.Nested (placed : Span → Prop) : Node → Prop
  | mk {span : Span} {form : Form} (here : placed span)
      (inner : ∀ c ∈ form.children, span.Contains c.span)
      (children : ∀ c ∈ form.children, c.Nested placed) : Nested placed ⟨span, form⟩

section Nested

variable {P Q : Span → Prop} {tree node : Node}

theorem Node.Nested.placed (h : node.Nested P) : P node.span := by
  cases h with
  | mk here _ _ => exact here

theorem Node.Nested.mono (h : node.Nested P) (hPQ : ∀ s, P s → Q s) : node.Nested Q := by
  induction h with
  | mk here inner _ ih => exact .mk (hPQ _ here) inner ih

/-- If all forms of a nested tree are as the grammar makes them, the tree is sound. -/
theorem Node.Nested.sound (h : tree.Nested P) (hsound : ∀ node, tree.Has node → node.form.Sound) :
    tree.Sound := by
  induction h with
  | mk _ _ _ ih =>
    exact .mk (hsound _ .self) fun c hc => ih c hc fun node hnode => hsound _ (.child hc hnode)

end Nested

/-- The stretch lies in the text between two offsets. -/
structure Span.Between (text : Laid) (o p : Nat) (s : Span) : Prop where
  placed : text.Has s
  low : o ≤ s.start.offset
  high : s.stop ≤ p

namespace Span.Between

variable {text : Laid} {o m p q : Nat} {a b : Span}

theorem upTo (h : a.Between text o p) (hle : p ≤ q) : a.Between text o q :=
  ⟨h.placed, h.low, Nat.le_trans h.high hle⟩

theorem le (h : a.Between text o p) : a.start.offset ≤ p := Nat.le_trans a.offset_le_stop h.high

theorem stop_le (ha : a.Between text o m) (hb : b.Between text m q) : a.stop ≤ b.stop :=
  Nat.le_trans ha.high (Nat.le_trans hb.low b.offset_le_stop)

end Span.Between

theorem Token.Follows.between {text : Laid} {o p : Nat} {t : Token} (h : t.Follows text p)
    (ho : o ≤ p) : t.span.Between text o t.span.stop :=
  ⟨h.placed, Nat.le_trans ho h.behind, Nat.le_refl _⟩

/-- The form is as the grammar makes it, and its arguments are arranged. -/
structure Form.Proper (form : Form) : Prop where
  arranged : form.Arranged
  sound : form.Sound

namespace Form.Proper

variable {form : Form}

theorem of_none (h : form.arguments? = none) (hsound : form.Sound) : form.Proper :=
  ⟨.of_none h, hsound⟩

theorem of_arguments {args : List Node} (h : form.arguments? = some args)
    (hargs : Grammar.Arranged args) : form.Proper := by
  refine ⟨.of_arguments h hargs, ?_⟩
  cases form <;> trivial

theorem of_children (h : form.children = []) : form.Proper := by
  refine ⟨.of_children h, ?_⟩
  cases form <;> trivial

end Form.Proper

namespace Grammar

variable {text : Laid} {o m p q : Nat}

/-- The tree is nested and lies between two offsets, and all forms in it are proper. -/
structure Fits (text : Laid) (o q : Nat) (node : Node) : Prop where
  nested : node.Nested text.Has
  proper : ∀ inner, node.Has inner → inner.form.Proper
  low : o ≤ node.span.start.offset
  high : node.span.stop ≤ q

section Nodes

variable {node left right : Node} {form : Form} {a b : Span}

theorem Fits.mono (h : Fits text m p node) (ho : o ≤ m) (hq : p ≤ q) : Fits text o q node :=
  ⟨h.nested, h.proper, Nat.le_trans ho h.low, Nat.le_trans h.high hq⟩

theorem Fits.upTo (h : Fits text o p node) (hq : p ≤ q) : Fits text o q node :=
  h.mono (Nat.le_refl o) hq

theorem Fits.between (h : Fits text o q node) : node.span.Between text o q :=
  ⟨h.nested.placed, h.low, h.high⟩

theorem Fits.le (h : Fits text o q node) : o ≤ q := Nat.le_trans h.low h.between.le

theorem Fits.self (h : Fits text o q node) : Fits text node.span.start.offset q node :=
  ⟨h.nested, h.proper, Nat.le_refl _, h.high⟩

/-- All of the trees fit between two offsets. -/
def FitsAll (text : Laid) (o q : Nat) (nodes : List Node) : Prop :=
  ∀ node ∈ nodes, Fits text o q node

theorem fitsAll_nil : FitsAll text o q [] := fun _ h => absurd h List.not_mem_nil

theorem fitsAll_singleton (h : Fits text o q node) : FitsAll text o q [node] :=
  List.forall_mem_singleton.2 h

theorem FitsAll.cons {nodes : List Node} (h : Fits text o q node) (hs : FitsAll text o q nodes) :
    FitsAll text o q (node :: nodes) :=
  List.forall_mem_cons.2 ⟨h, hs⟩

theorem FitsAll.append {nodes nodes' : List Node} (h : FitsAll text o q nodes)
    (h' : FitsAll text o q nodes') : FitsAll text o q (nodes ++ nodes') :=
  List.forall_mem_append.2 ⟨h, h'⟩

theorem FitsAll.mono {nodes : List Node} (h : FitsAll text m p nodes) (ho : o ≤ m) (hq : p ≤ q) :
    FitsAll text o q nodes :=
  fun node hnode => (h node hnode).mono ho hq

theorem FitsAll.upTo {nodes : List Node} (h : FitsAll text o p nodes) (hq : p ≤ q) :
    FitsAll text o q nodes :=
  h.mono (Nat.le_refl o) hq

/-- A node with the span `a` whose children fit into that. -/
theorem fits_of_children (ha : a.Between text o q) (hform : form.Proper)
    (h : FitsAll text a.start.offset a.stop form.children) : Fits text o q ⟨a, form⟩ where
  nested := .mk ha.placed (fun c hc => ⟨(h c hc).low, (h c hc).high⟩) fun c hc => (h c hc).nested
  proper := by
    rintro inner (_ | ⟨hc, hinner⟩)
    · exact hform
    · exact (h _ hc).proper inner hinner
  low := ha.low
  high := ha.high

theorem fits_leaf (ha : a.Between text o q) (h : form.children = []) : Fits text o q ⟨a, form⟩ :=
  fits_of_children ha (.of_children h) (h ▸ fitsAll_nil)

/-- A node from one stretch up to another behind it. -/
theorem fits_join (ha : a.Between text o m) (hb : b.Between text m q) (hform : form.Proper)
    (h : FitsAll text a.start.offset b.stop form.children) : Fits text o q ⟨a.join b, form⟩ := by
  have hstop : (a.join b).stop = b.stop := by
    rw [Span.stop_join, Nat.max_eq_left (ha.stop_le hb)]
  refine fits_of_children ⟨ha.placed.join hb.placed.inside, ha.low, hstop ▸ hb.high⟩ hform ?_
  rw [hstop]
  exact h

/-- A node from a stretch up to where the cursor stands. -/
theorem fits_spanned (ha : a.Between text o p) (hb : b.stop = p) (hlen : p ≤ text.stop)
    (hform : form.Proper) (h : FitsAll text a.start.offset p form.children) :
    Fits text o p ⟨a.join b, form⟩ := by
  have hstop : (a.join b).stop = p := by rw [Span.stop_join, hb, Nat.max_eq_left ha.high]
  refine fits_of_children ⟨ha.placed.join (hb ▸ hlen), ha.low, Nat.le_of_eq hstop⟩ hform ?_
  rw [hstop]
  exact h

theorem Fits.before (h : Fits text o m node) (hb : b.Between text m q) :
    Fits text node.span.start.offset b.stop node :=
  ⟨h.nested, h.proper, Nat.le_refl _, h.between.stop_le hb⟩

theorem Fits.behind (h : Fits text m q node) (ha : a.Between text o m) :
    Fits text a.start.offset node.span.stop node :=
  ⟨h.nested, h.proper, Nat.le_trans ha.le h.low, Nat.le_refl _⟩

theorem fits_over (ha : a.Between text o m) (hnode : Fits text m q node)
    (hform : form.Proper) (h : form.children ⊆ [node]) :
    Fits text o q ⟨a.join node.span, form⟩ := by
  refine fits_join ha hnode.between hform fun c hc => ?_
  cases List.mem_singleton.1 (h hc)
  exact hnode.behind ha

theorem fits_behind (hnode : Fits text o m node) (hb : b.Between text m q)
    (hform : form.Proper) (h : form.children ⊆ [node]) :
    Fits text o q ⟨node.span.join b, form⟩ := by
  refine fits_join hnode.between hb hform fun c hc => ?_
  cases List.mem_singleton.1 (h hc)
  exact hnode.before hb

theorem fits_joined (hleft : Fits text o m left) (hright : Fits text m q right)
    (hform : form.Proper) (h : form.children ⊆ [left, right]) :
    Fits text o q ⟨left.span.join right.span, form⟩ := by
  refine fits_join hleft.between hright.between hform fun c hc => ?_
  rcases List.mem_cons.1 (h hc) with rfl | hc
  · exact hleft.before hright.between
  · cases List.mem_singleton.1 hc
    exact hright.behind hleft.between

end Nodes

/-! ## Statement lists -/

/-- What a rule begins with lies behind an offset. -/
def Rule.LiesBehind (text : Laid) (o p : Nat) : Rule → Prop
  | .conditional start => start.Between text o p
  | _ => o ≤ p

/-- The nodes that the rules give fit between where they begin and where the cursor stands then. -/
def Rules.Nest (text : Laid) (r : Rules) : Prop :=
  ∀ {rule : Rule} {o p : Nat}, rule.LiesBehind text o p →
    Spans text p none (r rule) fun q => Fits text o q

variable {r : Rules} {n : Nat} {start : Span}

theorem spans_body (hr : r.Nest text) (ho : o ≤ p) {closers : List String} :
    Spans text p none (body r closers n) fun q a =>
      FitsAll text o q a.1 ∧ a.2.span.Between text o q := by
  induction n generalizing p with
  | zero => exact spans_exhausted
  | succ n ih =>
    refine .skipWhile fun p₁ h₁ => .next (fun t ht => ?_) spans_expected
    have ho₁ : o ≤ p₁ := Nat.le_trans ho h₁
    dsimp only
    split
    · exact .keep (.pure ⟨fitsAll_nil, ht.between ho₁⟩)
    · refine .push (.bind (hr ho₁) fun p₂ node h₂ hnode => ?_)
      refine .steady regular_endOfCommand.steady fun p₃ _ h₃ => ?_
      refine .bind (ih (by omega)) fun q rest hq hrest => .pure ⟨?_, hrest.2⟩
      exact .cons (hnode.upTo (by omega)) hrest.1

theorem spans_bodyUntil (hr : r.Nest text) (ho : o ≤ p) {closer : String} :
    Spans text p none (bodyUntil r n closer) fun q => FitsAll text o q :=
  .bind (spans_body hr ho) fun _ _ _ h => .pure h.1

/-! ## Calls -/

/-- The pairs follow one another between two offsets, and each key comes before its value. -/
inductive PairsFit (text : Laid) : Nat → Nat → List (Node × Node) → Prop
  | nil {o q : Nat} : PairsFit text o q []
  | cons {o m p q : Nat} {key value : Node} {rest : List (Node × Node)}
      (hkey : Fits text o m key) (hvalue : Fits text m p value) (hle : p ≤ q)
      (hrest : PairsFit text p q rest) : PairsFit text o q ((key, value) :: rest)

section Pairs

variable {pairs : List (Node × Node)} {key value : Node}

theorem PairsFit.downTo (h : PairsFit text m q pairs) (ho : o ≤ m) : PairsFit text o q pairs := by
  cases h with
  | nil => exact .nil
  | cons hkey hvalue hle hrest => exact .cons (hkey.mono ho (Nat.le_refl _)) hvalue hle hrest

theorem PairsFit.fitsAll (h : PairsFit text o q pairs) :
    FitsAll text o q (Form.hash pairs).children := by
  induction h with
  | nil => exact fitsAll_nil
  | @cons o m p q key value rest hkey hvalue hle _ ih =>
    have hom : o ≤ m := hkey.le
    have hmp : m ≤ p := hvalue.le
    refine .cons (hkey.upTo (by omega)) (.cons (hvalue.mono hom hle) ?_)
    exact ih.mono (by omega) (Nat.le_refl q)

/-- The last value of one or more pairs. -/
def lastValue (value : Node) (rest : List (Node × Node)) : Node :=
  (rest.getLast?.map Prod.snd).getD value

theorem lastValue_cons {pair : Node × Node} :
    lastValue value (pair :: pairs) = lastValue pair.2 pairs := by
  unfold lastValue
  rw [List.getLast?_cons]
  cases pairs.getLast? <;> rfl

/-- One or more pairs reach from the first key up to the last value. -/
theorem PairsFit.reach (h : PairsFit text o q ((key, value) :: pairs)) :
    ∃ m, Fits text o m key ∧ Fits text m q (lastValue value pairs) ∧
      FitsAll text key.span.start.offset (lastValue value pairs).span.stop
        (Form.hash ((key, value) :: pairs)).children := by
  induction pairs generalizing o key value with
  | nil =>
    cases h with
    | @cons _ m p _ _ _ _ hkey hvalue hle _ =>
      refine ⟨m, hkey, hvalue.upTo hle, .cons (hkey.before hvalue.between) ?_⟩
      exact fitsAll_singleton (hvalue.behind hkey.between)
  | cons pair rest ih =>
    cases h with
    | @cons _ m p _ _ _ _ hkey hvalue hle hrest =>
      obtain ⟨m', hnext, hlast, hchildren⟩ := ih hrest
      rw [lastValue_cons]
      have hlast' : Fits text p q (lastValue pair.2 rest) := hlast.mono hnext.le (Nat.le_refl q)
      have hafter : Fits text m q (lastValue pair.2 rest) := hlast'.mono hvalue.le (Nat.le_refl q)
      have hvalueLow := Nat.le_trans hkey.between.le hvalue.low
      have hnextLow := Nat.le_trans hkey.between.le (Nat.le_trans hvalue.le hnext.low)
      refine ⟨m, hkey, hafter, .cons (hkey.before hafter.between) (.cons ?_ ?_)⟩
      · exact (hvalue.before hlast'.between).mono hvalueLow (Nat.le_refl _)
      · exact hchildren.mono hnextLow (Nat.le_refl _)

theorem fitsAll_pairsArg (h : PairsFit text o q pairs) : FitsAll text o q (pairsArg pairs) := by
  cases pairs with
  | nil => exact fitsAll_nil
  | cons pair rest =>
    obtain ⟨m, hkey, hlast, hchildren⟩ := h.reach
    exact fitsAll_singleton (fits_join hkey.between hlast.between (.of_none rfl trivial) hchildren)

end Pairs

/-- The arguments and the block that is handed on fit, and the arguments are as they are written. -/
structure Args.Fit (text : Laid) (o q : Nat) (args : Args) : Prop where
  positional : FitsAll text o q args.positional
  pairs : PairsFit text o q args.pairs
  block : FitsAll text o q args.block.children
  written : ∃ written, args.WrittenFrom o written

theorem Args.Fit.none {block : BlockArg} (h : FitsAll text o q block.children) :
    Args.Fit text o q { block } :=
  ⟨fitsAll_nil, .nil, h, [], .none o block⟩

theorem Args.Fit.downTo {args : Args} (h : args.Fit text m q) (ho : o ≤ m) : args.Fit text o q where
  positional := h.positional.mono ho (Nat.le_refl q)
  pairs := h.pairs.downTo ho
  block := h.block.mono ho (Nat.le_refl q)
  written := h.written.imp fun _ hwritten => hwritten.downTo ho

/-- What stands behind a comma does not begin where the cursor stands: the comma is there. -/
theorem spans_afterComma {others : Parse Args}
    (h : ∀ {o p}, o ≤ p → Spans text p none others fun q => Args.Fit text o q) :
    Spans text p none (afterComma n others) fun q => Args.Fit text (p + 1) q :=
  .accept (fun _ h₁ => .skipWhile fun _ h₂ => h (by omega)) fun _ _ => .pure (.none fitsAll_nil)

/-- The arguments and the block fit, and the arguments are arranged. -/
structure ArgsFit (text : Laid) (o q : Nat) (a : List Node × BlockArg) : Prop where
  args : FitsAll text o q a.1
  block : FitsAll text o q a.2.children
  arranged : Arranged a.1

theorem argsFit_none : ArgsFit text o q ([], .none) := ⟨fitsAll_nil, fitsAll_nil, arranged_nil⟩

/-- A form that spans from `start` up to where the cursor stands. -/
theorem Spans.close {form : Form} (hstart : start.Between text o p) (hform : form.Proper)
    (h : FitsAll text start.start.offset p form.children) :
    Spans text p none (do
      let span ← Grammar.spanFrom start
      Pure.pure (⟨span, form⟩ : Node)) fun q => Fits text o q :=
  .spanFrom fun _ hlast hlen => .pure (fits_spanned hstart hlast hlen hform h)

section Rules

variable (hr : r.Nest text)

include hr

theorem spans_argument {others : Parse Args}
    (h : ∀ {o p}, o ≤ p → Spans text p none others fun q => Args.Fit text o q) (ho : o ≤ p) :
    Spans text p none (argument r n others) fun q => Args.Fit text o q := by
  refine .bind (hr ho) fun p₁ arg h₁ harg => .accept (fun p₂ h₂ => ?_) fun p₂ h₂ => ?_
  · refine .skipWhile fun p₃ h₃ => .bind (hr (Nat.le_refl p₃)) fun p₄ value h₄ hvalue => ?_
    refine .bind (spans_afterComma h) fun q rest hq hrest => .pure ?_
    have hfrom := hrest.downTo (show o ≤ p₄ + 1 by omega)
    obtain ⟨written, hwritten⟩ := hrest.written
    have hkey : arg.span.stop < value.span.start.offset := by
      have := harg.high
      have := hvalue.low
      omega
    have hentry : value.span.stop < p₄ + 1 := Nat.lt_succ_of_le hvalue.high
    refine ⟨hfrom.positional, ?_, hfrom.block, _, hwritten.pair harg.low hkey hentry⟩
    exact .cons (harg.upTo (by omega)) hvalue hq (hrest.pairs.downTo (Nat.le_succ p₄))
  · refine .bind (spans_afterComma h) fun q rest hq hrest => .pure ?_
    have hfrom := hrest.downTo (show o ≤ p₂ + 1 by omega)
    obtain ⟨written, hwritten⟩ := hrest.written
    have hlt : arg.span.stop < p₂ + 1 := Nat.lt_succ_of_le (Nat.le_trans harg.high h₂)
    refine ⟨.cons (harg.upTo (by omega)) hfrom.positional, hfrom.pairs, hfrom.block, ?_⟩
    exact ⟨_, hwritten.value harg.low hlt⟩

theorem spans_argsLoop (ho : o ≤ p) :
    Spans text p none (argsLoop r n) fun q => Args.Fit text o q := by
  induction n generalizing o p with
  | zero => exact spans_exhausted
  | succ n ih =>
    refine .next (fun t ht => ?_) (spans_argument hr ih ho)
    dsimp only
    split
    · refine .keep (.bind (hr (Nat.le_trans ho ht.le_stop)) fun q node _ hnode => .pure ?_)
      exact .none (fitsAll_singleton hnode)
    · exact .push (spans_argument hr ih ho)

theorem spans_commandArgs (ho : o ≤ p) :
    Spans text p none (commandArgs r n) fun q => ArgsFit text o q := by
  refine .bind (spans_argsLoop hr ho) fun _ _ _ h => .pure ?_
  obtain ⟨written, hwritten⟩ := h.written
  exact ⟨h.positional.append (fitsAll_pairsArg h.pairs), h.block, hwritten.arranged⟩

theorem spans_parenArgs (ho : o ≤ p) :
    Spans text p none (parenArgs r n) fun q => ArgsFit text o q := by
  refine spans_withNoDo (.skipWhile fun p₁ h₁ => .accept (fun _ _ => ?_) fun p₂ h₂ => ?_)
  · exact .pure argsFit_none
  · refine .bind (spans_commandArgs hr (show o ≤ p₂ by omega)) fun p₃ args h₃ hargs => ?_
    refine .skipWhile fun p₄ h₄ => .expect fun t ht _ => .pure ?_
    have hle := ht.le_stop
    exact ⟨hargs.args.upTo (by omega), hargs.block.upTo (by omega), hargs.arranged⟩

theorem spans_itemsUntil (ho : o ≤ p) {closer : String} :
    Spans text p none (itemsUntil r closer n) fun q => FitsAll text o q := by
  induction n generalizing p with
  | zero => exact spans_exhausted
  | succ n ih =>
    refine .bind (hr ho) fun p₁ item h₁ hitem => ?_
    refine .skipWhile fun p₂ h₂ => .next (fun t ht => ?_) spans_expected
    have hle := ht.le_stop
    dsimp only
    split
    · refine .keep (.skipWhile fun p₃ h₃ => .accept (fun p₄ h₄ => ?_) fun p₄ h₄ => ?_)
      · exact .pure (fitsAll_singleton (hitem.upTo (by omega)))
      · refine .bind (ih (by omega)) fun q items hq hitems => .pure ?_
        exact .cons (hitem.upTo (by omega)) hitems
    · split
      · exact .keep (.pure (fitsAll_singleton (hitem.upTo (by omega))))
      · exact spans_expected

theorem spans_listUntil (ho : o ≤ p) {closer : String} :
    Spans text p none (listUntil r n closer) fun q => FitsAll text o q := by
  refine spans_withNoDo (.skipWhile fun p₁ h₁ => .accept (fun _ _ => .pure fitsAll_nil) ?_)
  exact fun p₂ h₂ => spans_itemsUntil hr (by omega)

theorem spans_blockLiteral (ho : o ≤ p) :
    Spans text p none (blockLiteral r n) fun q block => FitsAll text o q block.children := by
  refine .steady regular_blockOpener.steady fun p₁ opener h₁ => ?_
  cases opener with
  | none => exact .pure fitsAll_nil
  | some opener =>
    refine .steady regular_siteAt.steady fun p₂ site h₂ => spans_withNoDo ?_
    refine .steady regular_blockParams.steady fun p₃ params h₃ => ?_
    exact .bind (spans_bodyUntil hr (by omega)) fun _ _ _ h => .pure h

theorem spans_callArgs (ho : o ≤ p) :
    Spans text p none (callArgs r n) fun q => ArgsFit text o q := by
  refine .next (fun t ht => ?_) (.pure argsFit_none)
  dsimp only
  split
  · exact .keep (spans_parenArgs hr (Nat.le_trans ho ht.le_stop))
  · refine .push ?_
    split
    · exact spans_commandArgs hr ho
    · exact .pure argsFit_none

theorem spans_callRest {receiver : Option Node} {name : String} {nameSpan : Span}
    (hstart : ((receiver.map Node.span).getD nameSpan).Between text o p)
    (hreceiver : FitsAll text ((receiver.map Node.span).getD nameSpan).start.offset p
      receiver.toList) :
    Spans text p none (callRest r n receiver name nameSpan) fun q => Fits text o q := by
  refine .bind (spans_callArgs hr hstart.le) fun p₁ a h₁ hargs => ?_
  obtain ⟨args, given⟩ := a
  have hclose : ∀ (p₂ : Nat) (block : BlockArg), p₁ ≤ p₂ → FitsAll text _ p₂ block.children →
      Spans text p₂ none (do
        let span ← spanFrom ((receiver.map Node.span).getD nameSpan)
        pure (⟨span, .call receiver name args block⟩ : Node)) fun q => Fits text o q :=
    fun p₂ block h₂ hblock => .close (hstart.upTo (by omega)) (.of_arguments rfl hargs.arranged)
      (((hreceiver.upTo (by omega)).append (hargs.args.upTo (by omega))).append hblock)
  cases given with
  | none => exact .bind (spans_blockLiteral hr (Nat.le_trans hstart.le h₁)) hclose
  | literal block => exact hclose p₁ _ (Nat.le_refl p₁) hargs.block
  | value node => exact hclose p₁ _ (Nat.le_refl p₁) hargs.block

theorem spans_memberOf {term : Node} (hterm : Fits text o p term) {scope : Bool} :
    Spans text p none (memberOf r n term scope) fun q => Fits text o q := by
  refine .skipWhile fun p₁ h₁ => .nextRequired fun name hname => .keep ?_
  have hle : p ≤ name.span.stop := Nat.le_trans h₁ hname.le_stop
  have hrest : ∀ {q}, name.span.stop ≤ q →
      Spans text q none (callRest r n (some term) name.text name.span) fun q => Fits text o q :=
    fun hq => spans_callRest hr (hterm.upTo (Nat.le_trans hle hq)).between
      (fitsAll_singleton (hterm.upTo (Nat.le_trans hle hq)).self)
  split
  · exact spans_expected
  · split
    · refine .steady regular_parenFollows.steady fun q paren hq => ?_
      split
      · exact hrest hq
      · have hplace := (hname.between (Nat.le_refl p₁)).upTo hq
        exact .pure (fits_behind (hterm.upTo h₁) hplace (.of_none rfl trivial) (List.Subset.refl _))
    · exact hrest (Nat.le_refl _)

theorem spans_chain {term : Node} (hterm : Fits text o p term) :
    Spans text p none (chain r n term) fun q => Fits text o q := by
  induction n generalizing term p with
  | zero => exact spans_exhausted
  | succ n ih =>
    refine .next (fun t ht => ?_) (.pure hterm)
    have hterm' := hterm.upTo ht.le_stop
    dsimp only
    split
    · exact .keep (.bind (spans_memberOf hr hterm') fun _ _ _ => ih)
    · split
      · refine .keep (.bind (spans_listUntil hr hterm'.between.le) fun q args hq hargs => ?_)
        refine .spanFrom fun last hlast hlen => ih ?_
        refine fits_spanned (hterm'.between.upTo hq) hlast hlen (.of_none rfl trivial) ?_
        exact .cons (hterm'.upTo hq).self hargs
      · exact .push (.pure hterm)

theorem spans_optionalArgs (ho : o ≤ p) :
    Spans text p none (optionalArgs r n) fun q args => FitsAll text o q args ∧ Arranged args :=
  .bind (spans_callArgs hr ho) fun _ _ _ h => .pure ⟨h.args, h.arranged⟩

theorem spans_optionalValue (ho : o ≤ p) :
    Spans text p none (optionalValue r) fun q value => FitsAll text o q value.toList := by
  refine .steady regular_peek.steady fun p₁ following h₁ => ?_
  cases following with
  | none => exact .pure fitsAll_nil
  | some t =>
    dsimp only
    split
    · refine .bind (hr (Nat.le_trans ho h₁)) fun _ node _ h => .pure (fitsAll_singleton h)
    · exact .pure fitsAll_nil

end Rules

/-! ## Terms -/

theorem spans_number {t : Token} {negative : Bool} :
    Spans text p none (number t negative) fun _ form => form.children = [] := by
  unfold number
  split
  · exact .pure rfl
  · dsimp only
    split
    · exact .pure rfl
    · exact spans_failAt

theorem fits_targetOf {t : Token} (h : t.span.Between text o q) : Fits text o q (targetOf t) := by
  unfold targetOf
  split
  · exact fits_leaf h rfl
  · split <;> exact fits_leaf h rfl

theorem spans_methodHead (ho : o ≤ p) :
    Spans text p none methodHead fun q a => FitsAll text o q a.1.toList := by
  refine .nextRequired fun first hfirst => .keep ?_
  have hplace := hfirst.between ho
  split
  · refine .accept (fun p₁ h₁ => .nextRequired fun name hname => .keep (.pure ?_)) fun _ _ => ?_
    · exact fitsAll_singleton (fits_targetOf (hplace.upTo (Nat.le_trans h₁.le hname.le_stop)))
    · exact .pure fitsAll_nil
  · exact .pure fitsAll_nil

theorem spans_pathRest {path : Node} (hpath : Fits text o p path) (hname : path.form.IsPlainPath) :
    Spans text p none (pathRest n path) fun q path => Fits text o q path ∧
      path.form.IsPlainPath := by
  induction n generalizing path p with
  | zero => exact spans_exhausted
  | succ n ih =>
    refine .accept (fun p₁ h₁ => .expect fun name hnext hkind => ?_) fun p₁ h₁ => ?_
    · refine ih ?_ (hnext.plain (eq_of_beq hkind))
      have hplace := hnext.between (Nat.le_refl p₁)
      exact fits_behind (hpath.upTo h₁.le) hplace (.of_none rfl trivial) (List.Subset.refl _)
    · exact .pure ⟨hpath.upTo h₁, hname⟩

theorem spans_classPath (ho : o ≤ p) :
    Spans text p none (classPath n) fun q path => Fits text o q path ∧ path.form.IsPlainPath :=
  .expect fun _ hfirst hkind =>
    spans_pathRest (fits_leaf (hfirst.between ho) rfl) (hfirst.plain (eq_of_beq hkind))

theorem spans_spanning {part : Parse Form} (hstart : start.Between text o p)
    (h : Spans text p none part fun q form =>
      form.Proper ∧ FitsAll text start.start.offset q form.children) :
    Spans text p none (spanning start part) fun q => Fits text o q :=
  .bind h fun _ _ hq hform => .close (hstart.upTo hq) hform.1 hform.2

section Rules

variable (hr : r.Nest text)

include hr

theorem spans_parenStatements (ho : o ≤ p) :
    Spans text p none (parenStatements r n) fun q => FitsAll text o q := by
  induction n generalizing p with
  | zero => exact spans_exhausted
  | succ n ih =>
    refine .bind (hr ho) fun p₁ node h₁ hnode => .next (fun t ht => .keep ?_) spans_expected
    have hnode' := hnode.upTo ht.le_stop
    dsimp only
    split
    · exact .pure (fitsAll_singleton hnode')
    · split
      · refine .skipWhile fun p₂ h₂ => .accept (fun p₃ h₃ => ?_) fun p₃ h₃ => ?_
        · exact .pure (fitsAll_singleton (hnode'.upTo (by omega)))
        · refine .bind (ih (Nat.le_trans hnode'.le (by omega))) fun q nodes hq hnodes => .pure ?_
          exact .cons (hnode'.upTo (by omega)) hnodes
      · exact spans_expected

theorem spans_parenthesized (hstart : start.Between text o p) :
    Spans text p none (parenthesized r n start) fun q => Fits text o q := by
  refine Spans.bind (P := fun q => FitsAll text start.start.offset q) (spans_withNoDo ?_)
    fun q nodes hq hnodes => .spanFrom fun last hlast hlen => ?_
  · refine .skipWhile fun p₁ h₁ => .accept (fun _ _ => .pure fitsAll_nil) fun p₂ h₂ => ?_
    exact spans_parenStatements hr (Nat.le_trans hstart.le (by omega))
  · have hstart' := hstart.upTo hq
    split
    · exact .pure (fits_spanned hstart' hlast hlen (.of_none rfl trivial) fitsAll_nil)
    · exact .pure ((hnodes _ List.mem_cons_self).mono hstart.low (Nat.le_refl q))
    · exact .pure (fits_spanned hstart' hlast hlen (.of_none rfl trivial) hnodes)

theorem spans_pairsUntil (ho : o ≤ p) :
    Spans text p none (pairsUntil r n) fun q => PairsFit text o q := by
  induction n generalizing o p with
  | zero => exact spans_exhausted
  | succ n ih =>
    refine .bind (hr ho) fun p₁ key h₁ hkey => .skipWhile fun p₂ h₂ => ?_
    refine .expect fun mark hmark _ => ?_
    refine .skipWhile fun p₃ h₃ => .bind (hr (Nat.le_refl p₃)) fun p₄ value h₄ hvalue => ?_
    have hkey' : Fits text o p₃ key := hkey.upTo (by have := hmark.le_stop; omega)
    refine .skipWhile fun p₅ h₅ => .next (fun t ht => .keep ?_) spans_expected
    have hstop : p₄ ≤ t.span.stop := Nat.le_trans h₅ ht.le_stop
    dsimp only
    split
    · refine .skipWhile fun p₆ h₆ => .accept (fun p₇ h₇ => ?_) fun p₇ h₇ => ?_
      · exact .pure (.cons hkey' hvalue (by omega) .nil)
      · refine .bind (ih (show p₄ ≤ p₇ by omega)) fun q pairs hq hpairs => .pure ?_
        exact .cons hkey' hvalue (by omega) hpairs
    · split
      · exact .pure (.cons hkey' hvalue hstop .nil)
      · exact spans_expected

theorem spans_hashLiteral (hstart : start.Between text o p) :
    Spans text p none (hashLiteral r n start) fun q => Fits text o q := by
  refine Spans.bind (P := fun q => PairsFit text start.start.offset q) (spans_withNoDo ?_)
    fun q pairs hq hpairs => .close (hstart.upTo hq) (.of_none rfl trivial) hpairs.fitsAll
  refine .skipWhile fun p₁ h₁ => .accept (fun _ _ => .pure .nil) fun p₂ h₂ => ?_
  exact spans_pairsUntil hr (Nat.le_trans hstart.le (by omega))

theorem spans_lambda (hstart : start.Between text o p) :
    Spans text p none (lambda r n start) fun q => Fits text o q := by
  refine .steady regular_lambdaParams.steady fun p₁ params h₁ => ?_
  refine .steady regular_blockOpener.steady fun p₂ opener h₂ => ?_
  cases opener with
  | none => exact .next (fun _ _ => spans_expected) spans_expected
  | some opener =>
    refine .bind (spans_withNoDo (spans_bodyUntil hr (Nat.le_trans hstart.le (by omega))))
      fun p₃ nodes h₃ hnodes => .steady regular_siteAt.steady fun p₄ site h₄ => ?_
    exact .close (hstart.upTo (by omega)) (.of_none rfl trivial) (hnodes.upTo h₄)

theorem spans_otherBranch {closer : Token} (ho : o ≤ p) (hcloser : closer.span.Between text o p) :
    Spans text p none (otherBranch r n closer) fun q => FitsAll text o q := by
  unfold otherBranch
  split
  · exact .bind (hr hcloser) fun _ _ _ h => .pure (fitsAll_singleton h)
  · split
    · exact spans_bodyUntil hr ho
    · exact .pure fitsAll_nil

theorem spans_conditional (hstart : start.Between text o p) {negate : Bool} :
    Spans text p none (conditional r n start negate) fun q => Fits text o q := by
  have ho := hstart.le
  refine .bind (hr ho) fun p₁ condition h₁ hcondition => ?_
  refine .steady regular_thenKeyword.steady fun p₂ _ h₂ => ?_
  refine .bind (spans_body hr (Nat.le_trans ho (by omega))) fun p₃ first h₃ hfirst => ?_
  have hother := spans_otherBranch (n := n) hr (Nat.le_trans ho (by omega)) hfirst.2
  refine .bind hother fun q other hq hother => ?_
  have hstart' := hstart.upTo (show p ≤ q by omega)
  have hcondition' := hcondition.upTo (show p₁ ≤ q by omega)
  have hfirst' := hfirst.1.upTo hq
  cases negate with
  | true => exact .close hstart' (.of_none rfl trivial) (.cons hcondition' (hother.append hfirst'))
  | false => exact .close hstart' (.of_none rfl trivial) (.cons hcondition' (hfirst'.append hother))

theorem spans_loopHeader (ho : o ≤ p) :
    Spans text p none (loopHeader r n) fun q => Fits text o q := by
  refine .bind (spans_withNoDo (hr ho)) fun p₁ node h₁ hnode => .skipWhile fun p₂ h₂ => ?_
  exact .steady regular_accept.steady fun p₃ _ h₃ => .pure (hnode.upTo (by omega))

theorem spans_loop (hstart : start.Between text o p) {wanted : Bool} :
    Spans text p none (loop r n start wanted) fun q => Fits text o q := by
  refine .bind (spans_loopHeader hr hstart.le) fun p₁ condition h₁ hcondition => ?_
  refine .bind (spans_bodyUntil hr hcondition.le) fun q nodes hq hnodes => ?_
  exact .close (hstart.upTo (by omega)) (.of_none rfl trivial) (.cons (hcondition.upTo hq) hnodes)

theorem spans_forEach (hstart : start.Between text o p) :
    Spans text p none (forEach r n start) fun q => Fits text o q := by
  refine .steady regular_expect.steady fun p₁ name h₁ => ?_
  refine .steady regular_expect.steady fun p₂ _ h₂ => ?_
  have hle : start.start.offset ≤ p₂ := Nat.le_trans hstart.le (Nat.le_trans h₁ h₂)
  refine .bind (spans_loopHeader hr hle) fun p₃ iterable h₃ hiterable => ?_
  refine .bind (spans_bodyUntil hr hiterable.le) fun p₄ nodes h₄ hnodes => ?_
  refine .steady regular_siteAt.steady fun q site hq => ?_
  refine .close (hstart.upTo (by omega)) (.of_none rfl trivial) ?_
  exact .cons (hiterable.upTo (by omega)) (hnodes.upTo hq)

theorem spans_define (hstart : start.Between text o p) :
    Spans text p none (define r n start) fun q => Fits text o q := by
  have ho := hstart.le
  refine .bind (spans_methodHead ho) fun p₁ head h₁ htarget => ?_
  refine .steady regular_methodName.of_insert.steady fun p₂ name h₂ => ?_
  refine .steady regular_methodParams.steady fun p₃ params h₃ => ?_
  refine .bind (spans_bodyUntil hr (Nat.le_trans ho (by omega))) fun p₄ nodes h₄ hnodes => ?_
  refine .steady regular_siteAt.steady fun q site hq => ?_
  refine .close (hstart.upTo (by omega)) (.of_none rfl trivial) ?_
  exact (htarget.upTo (by omega)).append (hnodes.upTo hq)

theorem spans_superclass (ho : o ≤ p) :
    Spans text p none (superclass r) fun q parent => FitsAll text o q parent.toList := by
  refine .accept (fun p₁ h₁ => ?_) fun _ _ => .pure fitsAll_nil
  exact .bind (hr (Nat.le_trans ho h₁.le)) fun _ _ _ h => .pure (fitsAll_singleton h)

theorem spans_openClass (hstart : start.Between text o p) :
    Spans text p none (openClass r n start) fun q => Fits text o q := by
  refine .bind (spans_classPath hstart.le) fun p₁ path h₁ ⟨hpath, hname⟩ => ?_
  refine .bind (spans_superclass hr hpath.le) fun p₂ parent h₂ hparent => ?_
  refine .bind (spans_bodyUntil hr (Nat.le_trans hpath.le h₂)) fun q nodes hq hnodes => ?_
  refine .close (hstart.upTo (by omega)) (.of_none rfl hname) (.cons (hpath.upTo (by omega)) ?_)
  exact (hparent.upTo hq).append hnodes

theorem spans_openModule (hstart : start.Between text o p) :
    Spans text p none (openModule r n start) fun q => Fits text o q := by
  refine .bind (spans_classPath hstart.le) fun p₁ path h₁ ⟨hpath, hname⟩ => ?_
  refine .bind (spans_bodyUntil hr hpath.le) fun q nodes hq hnodes => ?_
  exact .close (hstart.upTo (by omega)) (.of_none rfl hname) (.cons (hpath.upTo hq) hnodes)

theorem spans_nameOrCall {t : Token} (ht : t.span.Between text o p) :
    Spans text p none (nameOrCall r n t) fun q => Fits text o q := by
  have hrest : ∀ {q} (isCall : Bool), p ≤ q → Spans text q none (if isCall then
      callRest r n none t.text t.span else pure ⟨t.span, .localVar t.text⟩)
      fun q => Fits text o q := by
    intro q isCall hq
    split
    · exact spans_callRest hr (ht.upTo hq) fitsAll_nil
    · exact .pure (fits_leaf (ht.upTo hq) rfl)
  refine .steady regular_peek.steady fun q following hq => ?_
  cases following with
  | none => exact hrest false hq
  | some following =>
    dsimp only
    split
    · exact hrest true hq
    · split
      · exact Spans.noDo (f := fun flag => if !flag then callRest r n none t.text t.span
          else pure ⟨t.span, .localVar t.text⟩) fun flag => hrest _ hq
      · exact hrest _ hq

theorem spans_word {t : Token} (ht : t.span.Between text o p) :
    Spans text p none (word r n t) fun q => Fits text o q := by
  unfold word
  split
  case h_5 | h_6 => exact spans_conditional hr ht
  case h_7 | h_8 => exact spans_loop hr ht
  case h_9 => exact spans_forEach hr ht
  case h_10 => exact spans_define hr ht
  case h_11 => exact spans_openClass hr ht
  case h_12 => exact spans_openModule hr ht
  case h_13 =>
    refine spans_spanning ht (.bind (spans_bodyUntil hr ht.le) fun _ _ _ h => .pure ?_)
    exact ⟨.of_none rfl trivial, h⟩
  case h_14 =>
    refine .bind (hr (Nat.le_refl p)) fun _ _ _ hnode => .pure ?_
    exact fits_over ht hnode (.of_arguments rfl arranged_nil) (List.Subset.refl _)
  case h_15 | h_16 =>
    refine spans_spanning ht (.bind (spans_optionalArgs hr ht.le) fun _ _ _ h => .pure ?_)
    exact ⟨.of_arguments rfl h.2, h.1⟩
  case h_17 | h_18 =>
    refine spans_spanning ht (.bind (spans_optionalValue hr ht.le) fun _ _ _ h => .pure ?_)
    exact ⟨.of_none rfl trivial, h⟩
  case h_22 =>
    split
    · exact spans_unexpected
    · exact spans_nameOrCall hr ht
  all_goals exact .pure (fits_leaf ht rfl)

theorem spans_bracket {t : Token} (ht : t.span.Between text o p) :
    Spans text p none (bracket r n t) fun q => Fits text o q := by
  unfold bracket
  split
  · exact spans_parenthesized hr ht
  · refine spans_spanning ht (.bind (spans_listUntil hr ht.le) fun _ _ _ h => .pure ?_)
    exact ⟨.of_none rfl trivial, h⟩
  · exact spans_hashLiteral hr ht
  · refine .expect fun name hname _ => .pure ?_
    exact fits_join ht (hname.between (Nat.le_refl p)) (.of_none rfl trivial) fitsAll_nil
  · exact spans_unexpected

theorem spans_primary (ho : o ≤ p) : Spans text p none (primary r n) fun q => Fits text o q := by
  refine .nextRequired fun t ht => .keep ?_
  have hplace := ht.between ho
  split
  case h_1 | h_2 =>
    exact .bind spans_number fun _ _ hq hform => .pure (fits_leaf (hplace.upTo hq) hform)
  case h_8 =>
    refine .steady regular_parenFollows.steady fun q paren hq => ?_
    split
    · exact spans_callRest hr (hplace.upTo hq) fitsAll_nil
    · exact .pure (fits_leaf (hplace.upTo hq) rfl)
  case h_9 => exact spans_word hr hplace
  case h_10 => exact spans_bracket hr hplace
  case h_11 =>
    split
    · exact spans_lambda hr hplace
    · exact spans_unexpected
  case h_12 => exact spans_unexpected
  all_goals exact .pure (fits_leaf hplace rfl)

end Rules

/-! ## Operators -/

/-- The form has no children but its two operands. -/
structure IsOfBoth (combine : Node → Node → Form) : Prop where
  children : ∀ left right, (combine left right).children ⊆ [left, right]
  proper : ∀ left right, (combine left right).Proper

theorem spans_leftAssoc {operand : Parse Node} {operator? : Token → Option (Node → Node → Form)}
    (hoperand : ∀ {p}, Spans text p none operand fun q => Fits text p q)
    (hoperator : ∀ {t combine}, operator? t = some combine → IsOfBoth combine) {left : Node}
    (hleft : Fits text o p left) :
    Spans text p none (leftAssoc operand operator? n left) fun q => Fits text o q := by
  induction n generalizing left p with
  | zero => exact spans_exhausted
  | succ n ih =>
    refine .next (fun t ht => ?_) (.pure hleft)
    dsimp only
    split
    · exact .push (.pure hleft)
    · next combine hcombine =>
      refine .keep (.skipWhile fun p₁ h₁ => .bind hoperand fun q right _ hright => ih ?_)
      have hleft' := hleft.upTo (Nat.le_trans ht.le_stop h₁)
      have hboth := hoperator hcombine
      exact fits_joined hleft' hright (hboth.proper left right) (hboth.children left right)

theorem isOfBoth_combine (op : String) : IsOfBoth (combine op) := by
  constructor
  · intro left right
    unfold combine
    split
    · exact List.Subset.refl _
    · split <;> exact List.Subset.refl _
  · intro left right
    unfold combine
    split
    · exact .of_none rfl trivial
    · split
      · exact .of_none rfl trivial
      · exact .of_arguments rfl (arranged_singleton right)

theorem isOfBoth_levelOperator {operators : List String} {t : Token} {combine : Node → Node → Form}
    (h : levelOperator? operators t = some combine) : IsOfBoth combine := by
  unfold levelOperator? at h
  split at h
  · cases h
    exact isOfBoth_combine t.text
  · cases h

theorem isOfBoth_both : IsOfBoth .both :=
  ⟨fun _ _ => List.Subset.refl _, fun _ _ => .of_none rfl trivial⟩

theorem isOfBoth_either : IsOfBoth .either :=
  ⟨fun _ _ => List.Subset.refl _, fun _ _ => .of_none rfl trivial⟩

theorem isOfBoth_modifier {t : Token} {modify : Node → Node → Form}
    (h : modifier? t = some modify) : IsOfBoth modify := by
  have hswap : ∀ node condition : Node, [condition, node] ⊆ [node, condition] :=
    fun node condition => (List.Perm.swap node condition []).subset
  unfold modifier? at h
  repeat' split at h
  all_goals cases h
  all_goals exact ⟨hswap, fun _ _ => .of_none rfl trivial⟩

section Rules

variable (hr : r.Nest text)

include hr

theorem spans_operand (ho : o ≤ p) : Spans text p none (operand r n) fun q => Fits text o q := by
  refine .nextRequired fun t ht => ?_
  have hplace := ht.between ho
  have hsend : ∀ {name : String}, Spans text t.span.stop none (do
      let node ← r .operand
      pure (⟨t.span.join node.span, .send node name []⟩ : Node)) fun q => Fits text o q :=
    .bind (hr (Nat.le_refl _)) fun _ _ _ hnode =>
      .pure (fits_over hplace hnode (.of_arguments rfl arranged_nil) (List.Subset.refl _))
  split
  · refine .keep (.nextRequired fun following hfollowing => ?_)
    split
    · refine .keep (.bind spans_number fun q form hq hform => spans_chain hr ?_)
      have hplace' := (hfollowing.between (Nat.le_refl _)).upTo hq
      exact fits_join hplace hplace' (.of_children hform) (hform ▸ fitsAll_nil)
    · exact .push hsend
  · split
    · exact .keep (hr (Nat.le_trans ho ht.le_stop))
    · split
      · exact .keep hsend
      · exact .push (.bind (spans_primary hr ho) fun _ _ _ => spans_chain hr)

theorem spans_binary (ho : o ≤ p) {levels : List (List String)} :
    Spans text p none (binary r n levels) fun q => Fits text o q := by
  induction levels generalizing o p with
  | nil => exact hr ho
  | cons operators tighter ih =>
    exact .bind (ih ho) fun _ _ _ => spans_leftAssoc (ih (Nat.le_refl _)) isOfBoth_levelOperator

theorem spans_conjunction (ho : o ≤ p) :
    Spans text p none (conjunction r n) fun q => Fits text o q := by
  refine .bind (spans_binary hr ho) fun _ _ _ =>
    spans_leftAssoc (spans_binary hr (Nat.le_refl _)) fun {t _} h => ?_
  unfold andOperator? at h
  split at h
  · cases h
    exact isOfBoth_both
  · cases h

theorem spans_value (ho : o ≤ p) : Spans text p none (value r n) fun q => Fits text o q := by
  refine .bind (spans_conjunction hr ho) fun _ _ _ =>
    spans_leftAssoc (spans_conjunction hr (Nat.le_refl _)) fun {t _} h => ?_
  unfold orOperator? at h
  split at h
  · cases h
    exact isOfBoth_either
  · cases h

theorem spans_expression (ho : o ≤ p) :
    Spans text p none (expression r n) fun q => Fits text o q := by
  refine .bind (hr ho) fun p₁ left h₁ hleft => .next (fun t ht => ?_) (.pure hleft)
  dsimp only
  split
  · exact .push (.pure hleft)
  · next operator _ =>
    split
    · exact spans_failAt
    · next hassignable =>
      have hassignable : left.form.isAssignable = true := by simpa using hassignable
      refine .keep (.skipWhile fun p₂ h₂ => .bind (hr (Nat.le_refl p₂)) fun q right _ hright => ?_)
      have hleft' := hleft.upTo (Nat.le_trans ht.le_stop h₂)
      cases operator with
      | none =>
        exact .pure (fits_joined hleft' hright (.of_none rfl hassignable) (List.Subset.refl _))
      | some op =>
        -- The call that gives the value has the same two operands, and is as long.
        have hcall : Fits text left.span.start.offset right.span.stop
            ⟨left.span.join right.span, .send left op [right]⟩ :=
          fits_joined hleft'.self ⟨hright.nested, hright.proper, hright.low, Nat.le_refl _⟩
            (.of_arguments rfl (arranged_singleton right)) (List.Subset.refl _)
        refine .pure (fits_join hleft'.between hright.between (.of_none rfl hassignable) ?_)
        exact .cons (hleft'.before hright.between) (fitsAll_singleton hcall)

theorem spans_negation (ho : o ≤ p) : Spans text p none (negation r) fun q => Fits text o q := by
  refine .nextRequired fun t ht => ?_
  split
  · refine .keep (.bind (hr (Nat.le_refl _)) fun _ _ _ hnode => .pure ?_)
    exact fits_over (ht.between ho) hnode (.of_arguments rfl arranged_nil) (List.Subset.refl _)
  · exact .push (hr ho)

theorem spans_clause (ho : o ≤ p) : Spans text p none (clause r n) fun q => Fits text o q := by
  refine .bind (hr ho) fun _ _ _ => spans_leftAssoc (hr (Nat.le_refl _)) fun {t _} h => ?_
  unfold wordOperator? at h
  split at h
  · cases h
    exact isOfBoth_both
  · split at h
    · cases h
      exact isOfBoth_either
    · cases h

theorem spans_modifiers {node : Node} (hnode : Fits text o p node) :
    Spans text p none (modifiers r n node) fun q => Fits text o q := by
  induction n generalizing node p with
  | zero => exact spans_exhausted
  | succ n ih =>
    refine .next (fun t ht => ?_) (.pure hnode)
    dsimp only
    split
    · exact .push (.pure hnode)
    · next modify hmodify =>
      refine .keep (.bind (hr (Nat.le_refl _)) fun q condition _ hcondition => ih ?_)
      have hboth := isOfBoth_modifier hmodify
      exact fits_joined (hnode.upTo ht.le_stop) hcondition (hboth.proper _ _) (hboth.children _ _)

theorem spans_statement (ho : o ≤ p) : Spans text p none (statement r n) fun q => Fits text o q :=
  .bind (hr ho) fun _ _ _ => spans_modifiers hr

end Rules

/-! ## Programs -/

theorem nest_step (hr : r.Nest text) : Rules.Nest text (step n r) := by
  intro rule o p h
  cases rule with
  | statement => exact spans_statement hr h
  | clause => exact spans_clause hr h
  | negation => exact spans_negation hr h
  | expression => exact spans_expression hr h
  | value => exact spans_value hr h
  | operand => exact spans_operand hr h
  | conditional start => exact spans_conditional hr h

theorem nest_rules : Rules.Nest text (rules n) := by
  induction n with
  | zero => exact fun _ => spans_exhausted
  | succ n ih => exact nest_step ih

theorem spans_command (hr : r.Nest text) :
    Spans text p none (command r n) fun q node => FitsAll text p q node.toList := by
  refine .skipWhile fun p₁ h₁ => .steady regular_peek.steady fun p₂ following h₂ => ?_
  cases following with
  | none => exact .pure fitsAll_nil
  | some t =>
    refine .bind (hr (Nat.le_trans h₁ h₂)) fun p₃ node h₃ hnode => ?_
    refine .steady regular_endOfCommand.steady fun q _ hq => ?_
    exact .pure (fitsAll_singleton (hnode.upTo hq))

theorem spans_commands (hr : r.Nest text) :
    Spans text p none (commands r n) fun q => FitsAll text p q := by
  induction n generalizing p with
  | zero => exact spans_exhausted
  | succ n ih =>
    refine .bind (spans_command hr) fun p₁ node h₁ hnode => ?_
    cases node with
    | none => exact .pure fitsAll_nil
    | some node =>
      refine .bind ih fun q nodes hq hnodes => .pure ?_
      exact (hnode.upTo hq).append (hnodes.mono h₁ (Nat.le_refl q))

theorem standsAt_start (source : SourceId) (s : Stream) :
    (Cursor.start source s).StandsAt s.ahead 0 where
  last := rfl
  ahead := ⟨[], rfl, rfl, Nat.zero_le _⟩

theorem fitsAll_of_parse {source : SourceId} {s : Stream} {nodes : List Node}
    (h : (parse source s).1 = .program nodes) : ∃ q, FitsAll s.ahead 0 q nodes := by
  obtain ⟨c, hprogram⟩ := parse_eq_program.1 h
  obtain ⟨q, -, -, hnodes⟩ := spans_commands nest_rules _ _ _ (standsAt_start source s) hprogram
  exact ⟨q, hnodes⟩

/-- A program that was read from a text is sound. -/
theorem sound_of_parse {source : SourceId} {s : Stream} {nodes : List Node} {text : String}
    (h : parse source s = (.program nodes, text)) : ∀ node ∈ nodes, node.Sound := by
  obtain ⟨q, hnodes⟩ := fitsAll_of_parse (congrArg Prod.fst h)
  intro node hnode
  have hfits := hnodes node hnode
  exact hfits.nested.sound fun inner hinner => (hfits.proper inner hinner).sound

end Grammar

end Spinel
