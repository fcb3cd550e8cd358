import Spinel.Evaluation
import Spinel.Proofs.Law.Methods
import Spinel.Proofs.Tree

/-!
# The evaluator keeps every law

The forms of nodes and the kinds of callables keep a law if the evaluators that they call are joined
by it and it goes along with what they note in failures: the spans of a node and of its children,
and the label of the source of a body. A law that does not hold for all trees is kept by sound ones.
So a step from two evaluators keeps the law (`holds_step`).
-/

namespace Spinel

open Run

variable {L : Law} {I J : Interp}

/-- The law holds for what a node is made of, and the places in it may be noted in failures. A
target of an assignment is not evaluated, but what it is made of is. -/
structure Run.Law.Serves (L : Law) (I J : Interp) (node : Node) : Prop where
  shape : L.AnyTree ∨ node.form.Sound
  here : L.Tags node.span
  places : ∀ child ∈ node.form.children, L.Tags child.span
  parts : ∀ child ∈ node.form.children, L.JoinsAt I J child
  deeper : ∀ child ∈ node.form.children, ∀ part ∈ child.form.children, L.JoinsAt I J part

namespace Interp

/-! ## Assignment -/

@[grind ←]
theorem holds_evalAll (scope : ScopeRef) {nodes : List Node}
    (hnodes : ∀ node ∈ nodes, L.JoinsAt I J node) :
    L.Holds (I.evalAll scope nodes) (J.evalAll scope nodes) := by
  induction nodes with
  | nil => exact holds_pure _
  | cons node rest ih =>
    obtain ⟨hnode, hrest⟩ := List.forall_mem_cons.1 hnodes
    exact (hnode scope).bind fun v => (ih hrest).bind fun vs => holds_pure (v :: vs)

@[grind ←]
theorem holds_store (hi : L.JoinsCalls I J) (scope : ScopeRef) {target : Node}
    (hshape : L.AnyTree ∨ target.form.isAssignable = true) (htarget : L.Tags target.span)
    (hparts : ∀ part ∈ target.form.children, L.JoinsAt I J part)
    (v : Value) : L.Holds (I.store scope target v) (J.store scope target v) := by
  unfold store
  split
  case h_7 receiver args hform =>
    rw [hform] at hparts
    obtain ⟨hreceiver, hargs⟩ := List.forall_mem_cons.1 hparts
    refine (hreceiver scope).bind fun receiver => (holds_evalAll scope hargs).bind fun args => ?_
    have hsend := holds_send hi receiver "[]=" (args ++ [v]) none
    exact (hsend.tagged htarget _).bind fun _ => holds_pure _
  case h_9 hrest =>
    have hany : L.AnyTree := hshape.resolve_right fun h => by
      unfold Form.isAssignable at h
      grind
    exact (holds_fail_of_anyTree hany _).tagged htarget _
  all_goals grind -funext [Form.children]

@[grind ←]
theorem holds_assign (hi : L.JoinsCalls I J) (scope : ScopeRef) {target value : Node}
    (hshape : L.AnyTree ∨ target.form.isAssignable = true) (htarget : L.Tags target.span)
    (hparts : ∀ part ∈ target.form.children, L.JoinsAt I J part)
    (hvalue : L.JoinsAt I J value) :
    L.Holds (I.assign scope target value) (J.assign scope target value) := by
  unfold assign
  grind -funext

/-! ## Definitions -/

@[grind ←]
theorem holds_definee (scope : ScopeRef) {span : Span} (hspan : L.Tags span)
    {target : Option Node} (htarget : ∀ node ∈ target.toList, L.JoinsAt I J node) :
    L.Holds (I.definee scope span target) (J.definee scope span target) := by
  unfold definee
  grind -funext

@[grind ←]
theorem holds_define (scope : ScopeRef) {span : Span} (hspan : L.Tags span) {target : Option Node}
    (htarget : ∀ node ∈ target.toList, L.JoinsAt I J node) (m : Method) :
    L.Holds (I.define scope span target m) (J.define scope span target m) := by
  unfold define
  grind -funext

@[grind ←]
theorem holds_location (scope : ScopeRef) {path : Node}
    (hshape : L.AnyTree ∨ path.form.isClassPath = true) (hpath : L.Tags path.span)
    (hparts : ∀ part ∈ path.form.children, L.JoinsAt I J part) :
    L.Holds (I.location scope path) (J.location scope path) := by
  unfold location
  split
  case h_3 hconstant hscoped =>
    have hany : L.AnyTree := hshape.resolve_right fun h => by
      unfold Form.isClassPath at h
      grind
    exact (holds_fail_of_anyTree hany _).tagged hpath _
  all_goals grind -funext [Form.children]

@[grind ←]
theorem holds_superclassOf (scope : ScopeRef) {node : Option Node}
    (hspan : ∀ s ∈ node.toList, L.Tags s.span) (hnode : ∀ s ∈ node.toList, L.JoinsAt I J s) :
    L.Holds (I.superclassOf scope node) (J.superclassOf scope node) := by
  unfold superclassOf
  grind -funext

@[grind .]
theorem holds_newClass (outer : ClassRef) (name : String) (isModule : Bool)
    (superclass : Option ClassRef) : L.Keeps (newClass outer name isModule superclass) := by
  unfold newClass
  grind

@[grind ←]
theorem holds_opened {span pathSpan : Span} (hspan : L.Tags span) (hpath : L.Tags pathSpan)
    (outer : ClassRef) (name : String) (isModule : Bool) (superclass : Option ClassRef) :
    L.Keeps (opened span pathSpan outer name isModule superclass) := by
  unfold opened
  grind

theorem holds_openClass (scope : ScopeRef) {span : Span} {path : Node} {superclass : Option Node}
    {body : List Node} (hspan : L.Tags span) (hshape : L.AnyTree ∨ path.form.isClassPath = true)
    (hpath : L.Tags path.span) (hparts : ∀ part ∈ path.form.children, L.JoinsAt I J part)
    (hplace : ∀ s ∈ superclass.toList, L.Tags s.span)
    (hsuper : ∀ s ∈ superclass.toList, L.JoinsAt I J s)
    (hbody : ∀ node ∈ body, L.JoinsAt I J node) (isModule : Bool) :
    L.Holds (I.openClass scope span path superclass body isModule)
      (J.openClass scope span path superclass body isModule) := by
  refine (holds_location scope hshape hpath hparts).bind fun (outer, name) => ?_
  refine (holds_superclassOf scope hplace hsuper).bind fun superclass => ?_
  refine (holds_opened hspan hpath outer name isModule superclass).bind fun c => ?_
  exact (holds_alloc _).bind fun inner => (holds_body inner .nil hbody).tagged hspan _

/-! ## Expressions -/

@[grind ←]
theorem holds_hashEntries (scope : ScopeRef) (t : Table) {pairs : List (Node × Node)}
    (hpairs : ∀ p ∈ pairs, L.JoinsAt I J p.1 ∧ L.JoinsAt I J p.2) :
    L.Holds (I.hashEntries scope t pairs) (J.hashEntries scope t pairs) := by
  induction pairs generalizing t with
  | nil => exact holds_pure _
  | cons pair rest ih =>
    obtain ⟨⟨hkey, hvalue⟩, hrest⟩ := List.forall_mem_cons.1 hpairs
    refine (hkey scope).bind fun key => (hvalue scope).bind fun value => ?_
    exact (holds_alloc _).bind fun t => ih t hrest

@[grind ←]
theorem holds_localOrCall (hi : L.JoinsCalls I J) (scope : ScopeRef) {span : Span}
    (hspan : L.Tags span) (name : String) :
    L.Holds (I.localOrCall scope span name) (J.localOrCall scope span name) := by
  unfold localOrCall
  grind -funext

@[grind ←]
theorem holds_scopedConstant (scope : ScopeRef) {span : Span} (hspan : L.Tags span) {outer : Node}
    (houter : L.JoinsAt I J outer) (name : String) :
    L.Holds (I.scopedConstant scope span outer name) (J.scopedConstant scope span outer name) := by
  unfold scopedConstant
  grind -funext

@[grind ←]
theorem holds_blockArgument (scope : ScopeRef) {block : BlockArg}
    (hplace : ∀ node ∈ block.children, L.Tags node.span)
    (hblock : ∀ node ∈ block.children, L.JoinsAt I J node) :
    L.Holds (I.blockArgument scope block) (J.blockArgument scope block) := by
  cases block with
  | none => exact holds_pure _
  | literal b => exact holds_pure _
  | value node =>
    have hspan : L.Tags node.span := hplace node List.mem_cons_self
    refine (hblock node List.mem_cons_self scope).bind fun v => ?_
    grind

theorem holds_call (hi : L.JoinsCalls I J) (scope : ScopeRef) {span : Span}
    {receiver : Option Node} {args : List Node} {block : BlockArg} (hspan : L.Tags span)
    (hplace : ∀ node ∈ block.children, L.Tags node.span)
    (hreceiver : ∀ node ∈ receiver.toList, L.JoinsAt I J node)
    (hargs : ∀ node ∈ args, L.JoinsAt I J node)
    (hblock : ∀ node ∈ block.children, L.JoinsAt I J node) (name : String) :
    L.Holds (I.call scope span receiver name args block)
      (J.call scope span receiver name args block) := by
  unfold call call.implicit
  grind -funext

@[grind ←]
theorem holds_yieldArgs (hi : L.JoinsCalls I J) (scope : ScopeRef) {span : Span}
    (hspan : L.Tags span) {args : List Node} (hargs : ∀ node ∈ args, L.JoinsAt I J node) :
    L.Holds (I.yieldArgs scope span args) (J.yieldArgs scope span args) := by
  unfold yieldArgs
  grind -funext

@[grind ←]
theorem holds_loop (scope : ScopeRef) (wanted : Bool) {condition : Node} {body : List Node}
    (hcondition : L.JoinsAt I J condition) (hbody : ∀ node ∈ body, L.JoinsAt I J node) (n : Nat) :
    L.Holds (I.loop scope wanted condition body n) (J.loop scope wanted condition body n) := by
  induction n with
  | zero => exact holds_outOfFuel
  | succ n ih =>
    unfold loop
    grind -funext

theorem holds_form (hi : L.JoinsCalls I J) (n : Nat) (scope : ScopeRef) {node : Node}
    (hnode : L.Serves I J node) : L.Holds (I.form n scope node) (J.form n scope node) := by
  obtain ⟨hshape, hhere, hplaces, hparts, hdeeper⟩ := hnode
  unfold form
  cases hform : node.form with
  | hash pairs =>
    have hpairs : ∀ p ∈ pairs, L.JoinsAt I J p.1 ∧ L.JoinsAt I J p.2 := by
      intro p hp
      rw [hform] at hparts
      exact ⟨hparts _ (List.mem_flatMap.2 ⟨p, hp, by simp⟩),
        hparts _ (List.mem_flatMap.2 ⟨p, hp, by simp⟩)⟩
    exact (holds_hashEntries scope .empty hpairs).bind fun t =>
      (holds_alloc _).bind fun r => holds_pure _
  | call receiver name args block =>
    simp only [hform, Form.children, List.mem_append] at hplaces hparts
    exact holds_call hi scope hhere (fun c hc => hplaces c (.inr hc))
      (fun c hc => hparts c (.inl (.inl hc))) (fun c hc => hparts c (.inl (.inr hc)))
      (fun c hc => hparts c (.inr hc)) name
  | assign target value =>
    rw [hform] at hshape hplaces hparts hdeeper
    exact holds_assign hi scope hshape (hplaces target List.mem_cons_self)
      (hdeeper target List.mem_cons_self) (hparts value (by simp [Form.children]))
  | openClass path superclass body =>
    simp only [hform, Form.children, List.mem_cons, List.mem_append, forall_eq_or_imp] at *
    exact holds_openClass scope hhere (hshape.imp_right Form.IsPlainPath.isClassPath) hplaces.1
      hdeeper.1 (fun c hc => hplaces.2 c (.inl hc))
      (fun c hc => hparts.2 c (.inl hc)) (fun c hc => hparts.2 c (.inr hc)) false
  | openModule path body =>
    simp only [hform, Form.children, List.mem_cons, forall_eq_or_imp] at *
    exact holds_openClass scope hhere (hshape.imp_right Form.IsPlainPath.isClassPath) hplaces.1
      hdeeper.1 (by simp) (by simp) hparts.2 true
  | _ => grind -funext [Form.children]

end Interp

/-! ## Invocation -/

mutual

@[grind .]
theorem Literal.holds_build : (l : Literal) → L.Keeps l.build
  | .nil | .bool _ | .int _ | .float _ | .symbol _ | .range _ _ => by
    unfold Literal.build
    exact holds_pure _
  | .str s => by
    unfold Literal.build
    exact holds_newText s
  | .array items => by
    unfold Literal.build
    exact (Literal.holds_buildAll items).bind fun vs => holds_newList vs
  | .hash pairs => by
    unfold Literal.build
    exact (Literal.holds_buildPairs pairs).bind fun ps => holds_newHash ps
  | .global name => by
    unfold Literal.build
    exact (holds_reading _).bind fun v => holds_pure _
  | .constant path => by
    unfold Literal.build
    exact (holds_reading _).bind fun v => holds_pure _

theorem Literal.holds_buildAll : (ls : List Literal) → L.Keeps (Literal.buildAll ls)
  | [] => by
    unfold Literal.buildAll
    exact holds_pure _
  | l :: rest => by
    unfold Literal.buildAll
    exact (Literal.holds_build l).bind fun v => (Literal.holds_buildAll rest).bind fun vs =>
      holds_pure _

theorem Literal.holds_buildPairs : (ps : List (Literal × Literal)) → L.Keeps (Literal.buildPairs ps)
  | [] => by
    unfold Literal.buildPairs
    exact holds_pure _
  | (k, l) :: rest => by
    unfold Literal.buildPairs
    exact (Literal.holds_build k).bind fun key => (Literal.holds_build l).bind fun v =>
      (Literal.holds_buildPairs rest).bind fun vs => holds_pure _

end

@[grind .]
theorem holds_bumpCounter (call : Call) : L.Keeps (bumpCounter call) := by
  unfold bumpCounter
  grind

@[grind ←]
theorem HostMethod.holds_run (hi : L.JoinsCalls I J) (m : HostMethod) (call : Call) :
    L.Holds (m.run I call) (m.run J call) := by
  unfold HostMethod.run
  grind -funext

@[grind ←]
theorem Native.holds_run (hi : L.JoinsCalls I J) (m : Native) (call : Call) :
    L.Holds (m.run I call) (m.run J call) := by
  unfold Native.run
  grind -funext

@[grind ←]
theorem Builtin.holds_run (hi : L.JoinsCalls I J) {b : Builtin}
    (hload : b = .kernel .require → L.JoinsLoading I J) (n : Nat) (call : Call) :
    L.Holds (b.run I n call) (b.run J n call) := by
  unfold Builtin.run
  grind -funext

@[grind .]
theorem Params.holds_spread (p : Params) (args : List Value) : L.Keeps (p.spread args) := by
  unfold Params.spread
  grind

@[grind ←]
theorem Interp.holds_runBody {site : Site} (hsite : L.Allows (·.inFile site.source.label))
    (scope : ScopeRef) {body : List Node} (hbody : ∀ node ∈ body, L.JoinsAt I J node) :
    L.Holds (I.runBody site scope body) (J.runBody site scope body) := by
  exact (Interp.holds_body scope .nil hbody).mapFailure hsite

@[grind ←]
theorem Interp.holds_runMethod {m : Method} (hsite : L.Allows (·.inFile m.site.source.label))
    (hbody : ∀ node ∈ m.body, L.JoinsAt I J node) (captured : ScopeRef) (call : Call) :
    L.Holds (I.runMethod m captured call) (J.runMethod m captured call) := by
  unfold Interp.runMethod
  grind -funext

@[grind ←]
theorem Interp.holds_runBlock {b : Block} (hsite : L.Allows (·.inFile b.site.source.label))
    (hbody : ∀ node ∈ b.body, L.JoinsAt I J node) (captured : ScopeRef) (call : Call) :
    L.Holds (I.runBlock b captured call) (J.runBlock b captured call) := by
  unfold Interp.runBlock
  grind -funext

/-- The law holds for the body of a callable, and the label of its source may be noted in failures.
-/
def Callable.Served (L : Law) (I J : Interp) : Callable → Prop
  | .method m _ =>
    L.Allows (·.inFile m.site.source.label) ∧ ∀ node ∈ m.body, L.JoinsAt I J node
  | .block b _ => L.Allows (·.inFile b.site.source.label) ∧ ∀ node ∈ b.body, L.JoinsAt I J node
  | .builtin _ | .native .. => True

/-- The method that loads other sources. -/
def Callable.Loads (c : Callable) : Prop := c = .builtin (.kernel .require)

theorem Callable.holds_run (hi : L.JoinsCalls I J) {c : Callable} (hc : c.Served L I J)
    (hload : c.Loads → L.JoinsLoading I J) (n : Nat) (call : Call) :
    L.Holds (c.run I n call) (c.run J n call) := by
  cases c with
  | method m captured => exact Interp.holds_runMethod hc.1 hc.2 captured call
  | block b captured => exact Interp.holds_runBlock hc.1 hc.2 captured call
  | builtin b => exact Builtin.holds_run hi (fun hb => hload (congrArg Callable.builtin hb)) n call
  | native serial m => exact Native.holds_run hi m call

/-! ## Steps -/

/-- The law holds for what a task is made of, and what a step notes in failures may be noted. -/
def Task.Served (L : Law) (I J : Interp) : Task → Prop
  | .eval _ node => L.Serves I J node ∧ L.Allows (·.tagFirst node.span .evaluating)
  | .invoke c _ _ _ => c.Served L I J

/-- The task is to load another source. -/
def Task.Loads : Task → Prop
  | .eval .. => False
  | .invoke c _ _ _ => c.Loads

theorem holds_step (hi : L.JoinsCalls I J) {task : Task} (htask : task.Served L I J)
    (hload : task.Loads → L.JoinsLoading I J) (n : Nat) :
    L.Holds (step n I task) (step n J task) := by
  cases task with
  | eval scope node => exact (Interp.holds_form hi n scope htask.1).mapFailure htask.2
  | invoke c receiver args block => exact Callable.holds_run hi htask hload n _

end Spinel
