import Spinel.Proofs.Grammar.Standing

/-!
# Arguments in the order of the source

Between the commas of a call stand values and pairs (`Written`), one behind the other in the source.
The tree has the values in that order and then, as one more argument, a hash of all the pairs
(`gathered`). So its arguments are in the order of the source exactly if no value is written behind
a pair (`sourceOrder_gathered_iff`). A form is `Arranged` if its arguments come about in this way.
-/

namespace Spinel

/-! ## Nodes of a tree -/

/-- The node is the tree itself or one of the nodes it is made of, at any depth. -/
inductive Node.Has : Node → Node → Prop
  | self {node : Node} : Has node node
  | child {node c inner : Node} (hc : c ∈ node.form.children) (h : Has c inner) : Has node inner

/-- The arguments of a call, of `yield` or of `super`. -/
def Form.arguments? : Form → Option (List Node)
  | .call _ _ args _ | .yieldTo args | .superCall args => some args
  | _ => none

/-! ## Order in the source -/

/-- The node ends where the other one begins, or before that, and begins before it. -/
def Node.Precedes (a b : Node) : Prop :=
  a.span.stop ≤ b.span.start.offset ∧ a.span.start.offset < b.span.start.offset

theorem Node.precedes_of_lt {a b : Node} (h : a.span.stop < b.span.start.offset) : a.Precedes b :=
  ⟨Nat.le_of_lt h, Nat.lt_of_le_of_lt a.span.offset_le_stop h⟩

theorem Node.Precedes.of_start_eq {a b c : Node} (h : a.Precedes b)
    (hstart : b.span.start = c.span.start) : a.Precedes c := by
  unfold Node.Precedes at h ⊢
  rwa [← hstart]

namespace Grammar

/-- The nodes do not overlap, and each begins behind the ones before it. -/
def SourceOrder (nodes : List Node) : Prop := nodes.Pairwise Node.Precedes

/-- An argument as it is written. -/
inductive Written where
  | value (node : Node)
  | pair (key value : Node)

namespace Written

def isPair : Written → Bool
  | .value _ => false
  | .pair _ _ => true

/-- The nodes that it is made of. -/
def nodes : Written → List Node
  | .value node => [node]
  | .pair key entry => [key, entry]

def value? : Written → Option Node
  | .value node => some node
  | .pair _ _ => none

def pair? : Written → Option (Node × Node)
  | .value _ => none
  | .pair key entry => some (key, entry)

end Written

/-- What the tree has for the arguments that are written. -/
def gathered (written : List Written) : List Node :=
  written.filterMap Written.value? ++ pairsArg (written.filterMap Written.pair?)

/-- No value is written behind a pair. -/
def PairsLast (written : List Written) : Prop :=
  written.Pairwise fun a b => a.isPair = true → b.isPair = true

variable {written : List Written} {node : Node}

theorem mem_nodes_of_value (h : node ∈ written.filterMap Written.value?) :
    node ∈ written.flatMap Written.nodes := by
  obtain ⟨w, hw, hvalue⟩ := List.mem_filterMap.1 h
  refine List.mem_flatMap.2 ⟨w, hw, ?_⟩
  cases w with
  | value n =>
    cases hvalue
    exact List.mem_singleton_self _
  | pair => cases hvalue

/-- An argument of the tree begins where one of the nodes begins that are written. -/
theorem exists_start_of_mem_gathered (h : node ∈ gathered written) :
    ∃ n ∈ written.flatMap Written.nodes, n.span.start = node.span.start := by
  rcases List.mem_append.1 h with h | h
  · exact ⟨node, mem_nodes_of_value h, rfl⟩
  · cases hpairs : written.filterMap Written.pair? with
    | nil =>
      rw [hpairs] at h
      cases h
    | cons pair rest =>
      rw [hpairs] at h
      cases List.mem_singleton.1 h
      have hmem : pair ∈ written.filterMap Written.pair? := hpairs ▸ List.mem_cons_self
      obtain ⟨w, hw, hpair⟩ := List.mem_filterMap.1 hmem
      refine ⟨pair.1, List.mem_flatMap.2 ⟨w, hw, ?_⟩, rfl⟩
      cases w with
      | value => cases hpair
      | pair key value =>
        cases hpair
        exact List.mem_cons_self

/-- A value begins before what is gathered behind it, wherever the pairs are. -/
theorem sourceOrder_gathered_value {rest : List Written} {node : Node}
    (h : ∀ n ∈ rest.flatMap Written.nodes, node.Precedes n) :
    SourceOrder (gathered (.value node :: rest)) ↔ SourceOrder (gathered rest) := by
  have hnode : ∀ b ∈ gathered rest, node.Precedes b := fun b hb => by
    obtain ⟨n, hn, hstart⟩ := exists_start_of_mem_gathered hb
    exact (h n hn).of_start_eq hstart
  have hgathered : gathered (.value node :: rest) = node :: gathered rest := rfl
  rw [hgathered, SourceOrder, List.pairwise_cons]
  exact and_iff_right hnode

/-- The hash comes last and begins with the first pair, so no value may be behind that. -/
theorem sourceOrder_gathered_pair {rest : List Written} {key entry : Node}
    (h : ∀ n ∈ rest.flatMap Written.nodes, key.Precedes n) :
    SourceOrder (gathered (.pair key entry :: rest)) ↔ ∀ w ∈ rest, w.isPair = true := by
  obtain ⟨hash, hgathered, hstart⟩ : ∃ hash : Node, gathered (.pair key entry :: rest) =
      rest.filterMap Written.value? ++ [hash] ∧ hash.span.start = key.span.start :=
    ⟨_, rfl, rfl⟩
  rw [hgathered]
  constructor
  · intro horder w hw
    cases w with
    | pair => rfl
    | value node =>
      have hvalue : node ∈ rest.filterMap Written.value? := List.mem_filterMap.2 ⟨_, hw, rfl⟩
      have hlast := ((List.pairwise_append.1 horder).2.2 node hvalue hash
        (List.mem_singleton_self hash)).2
      have hkey := (h node (mem_nodes_of_value hvalue)).2
      rw [hstart] at hlast
      omega
  · intro hpairs
    have hnone : rest.filterMap Written.value? = [] := by
      refine List.filterMap_eq_nil_iff.2 fun w hw => ?_
      cases w with
      | pair => rfl
      | value node => cases hpairs _ hw
    rw [hnone]
    exact List.pairwise_singleton _ _

/-- The arguments are in order exactly if the pairs are the last of what is written. -/
theorem sourceOrder_gathered_iff (h : SourceOrder (written.flatMap Written.nodes)) :
    SourceOrder (gathered written) ↔ PairsLast written := by
  induction written with
  | nil => exact iff_of_true .nil .nil
  | cons w rest ih =>
    rw [List.flatMap_cons] at h
    obtain ⟨-, hrest, hbehind⟩ := List.pairwise_append.1 h
    rw [PairsLast, List.pairwise_cons]
    cases w with
    | value node =>
      rw [sourceOrder_gathered_value (hbehind node (List.mem_singleton_self node)), ih hrest]
      exact (and_iff_right fun _ _ => nofun).symm
    | pair key entry =>
      rw [sourceOrder_gathered_pair (hbehind key List.mem_cons_self)]
      exact ⟨fun hpairs => ⟨fun w hw _ => hpairs w hw,
        List.pairwise_of_forall_mem_list fun _ _ w hw _ => hpairs w hw⟩,
        fun hpairs w hw => hpairs.1 w hw rfl⟩

/-! ## Arguments as the grammar makes them -/

/-- The arguments are gathered from such as are written in order. -/
def Arranged (args : List Node) : Prop :=
  ∃ written, SourceOrder (written.flatMap Written.nodes) ∧ args = gathered written

theorem arranged_nil : Arranged [] := ⟨[], .nil, rfl⟩

theorem arranged_singleton (node : Node) : Arranged [node] :=
  ⟨[.value node], List.pairwise_singleton _ _, rfl⟩

/-- The nodes are in order, from an offset on. -/
structure OrderedFrom (o : Nat) (nodes : List Node) : Prop where
  order : SourceOrder nodes
  low : ∀ n ∈ nodes, o ≤ n.span.start.offset

theorem OrderedFrom.cons {o m : Nat} {nodes : List Node} (h : OrderedFrom m nodes)
    (hlow : o ≤ node.span.start.offset) (hlt : node.span.stop < m) :
    OrderedFrom o (node :: nodes) := by
  have hbehind : ∀ n ∈ nodes, node.Precedes n := fun n hn =>
    Node.precedes_of_lt (Nat.lt_of_lt_of_le hlt (h.low n hn))
  refine ⟨.cons hbehind h.order, List.forall_mem_cons.2 ⟨hlow, fun n hn => ?_⟩⟩
  exact Nat.le_trans hlow (Nat.le_of_lt (hbehind n hn).2)

/-- The arguments are those that are written, in order and from an offset on. -/
structure Args.WrittenFrom (o : Nat) (written : List Written) (args : Args) : Prop where
  ordered : OrderedFrom o (written.flatMap Written.nodes)
  positional : args.positional = written.filterMap Written.value?
  pairs : args.pairs = written.filterMap Written.pair?

namespace Args.WrittenFrom

variable {o m : Nat} {args : Args}

theorem none (o : Nat) (block : BlockArg) : WrittenFrom o [] { block } :=
  ⟨⟨.nil, nofun⟩, rfl, rfl⟩

theorem downTo (h : args.WrittenFrom m written) (ho : o ≤ m) : args.WrittenFrom o written :=
  ⟨⟨h.ordered.order, fun n hn => Nat.le_trans ho (h.ordered.low n hn)⟩, h.positional, h.pairs⟩

theorem value (h : args.WrittenFrom m written) (hlow : o ≤ node.span.start.offset)
    (hlt : node.span.stop < m) :
    WrittenFrom o (.value node :: written) { args with positional := node :: args.positional } :=
  ⟨h.ordered.cons hlow hlt, congrArg (node :: ·) h.positional, h.pairs⟩

theorem pair {key entry : Node} (h : args.WrittenFrom m written)
    (hlow : o ≤ key.span.start.offset) (hkey : key.span.stop < entry.span.start.offset)
    (hentry : entry.span.stop < m) :
    WrittenFrom o (.pair key entry :: written) { args with pairs := (key, entry) :: args.pairs } :=
  ⟨(h.ordered.cons (Nat.le_refl _) hentry).cons hlow hkey, h.positional,
    congrArg ((key, entry) :: ·) h.pairs⟩

theorem arranged (h : args.WrittenFrom o written) :
    Arranged (args.positional ++ pairsArg args.pairs) :=
  ⟨written, h.ordered.order, by rw [h.positional, h.pairs]; rfl⟩

end Args.WrittenFrom

end Grammar

/-- The arguments of the form, if it has any, are arranged. -/
def Form.Arranged (form : Form) : Prop :=
  ∀ args, form.arguments? = some args → Grammar.Arranged args

theorem Form.Arranged.of_none {form : Form} (h : form.arguments? = none) : form.Arranged := by
  intro args h'
  cases h.symm.trans h'

theorem Form.Arranged.of_arguments {form : Form} {args : List Node}
    (h : form.arguments? = some args) (hargs : Grammar.Arranged args) : form.Arranged := by
  intro args' h'
  cases h.symm.trans h'
  exact hargs

theorem Form.Arranged.of_children {form : Form} (h : form.children = []) : form.Arranged := by
  intro args hargs
  unfold Form.arguments? at hargs
  split at hargs
  · cases hargs
    obtain ⟨hargs, -⟩ := List.append_eq_nil_iff.1 h
    rw [(List.append_eq_nil_iff.1 hargs).2]
    exact Grammar.arranged_nil
  · cases hargs
    exact (show args = [] from h) ▸ Grammar.arranged_nil
  · cases hargs
    exact (show args = [] from h) ▸ Grammar.arranged_nil
  · cases hargs

end Spinel
