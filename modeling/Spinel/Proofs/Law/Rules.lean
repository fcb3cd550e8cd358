import Spinel.Loading
import Spinel.Method.Argument
import Spinel.Proofs.Computation

/-!
# Laws of computations

A law is a relation between computations that everything computations are made of keeps. So it holds
between what a function does with one evaluator and what it does with another, if it holds between
the two evaluators, as far as the function uses them (`Run.Law.JoinsCalls`, `Run.Law.JoinsAt`): each
function has one lemma, and what is particular to a law is in its own definition. A law that looks
at one computation only is a property of computations. Some laws hold for all trees, others only for
those that the grammar makes (`Run.Law.AnyTree`).

The lemmas are tagged, and a function whose parts have theirs is done by looking at its cases.
-/

namespace Spinel

variable {α β : Type}

/-- What trees fail with that the grammar does not make: a target that nothing can be assigned to,
or a path that names no class. -/
@[grind unfold]
def Fault.isIllFormed : Fault → Bool
  | .notImplemented what => what == "assignment to this target" || what == "class path"
  | _ => false

attribute [grind unfold] Fault.sizeTooBig

namespace Run

/-- A relation that holds between computations if it holds between their parts. -/
structure Law where
  Holds : {α : Type} → Run α → Run α → Prop
  /-- The law also holds for trees that the grammar does not make. -/
  AnyTree : Prop
  /-- The changes of failures that the law goes along with. -/
  Allows : (Failure → Failure) → Prop
  result : ∀ {α : Type} (a : α), Holds (pure a : Run α) (pure a)
  sequence : ∀ {α β : Type} {x y : Run α} {f g : α → Run β}, Holds x y →
    (∀ a, Holds (f a) (g a)) → Holds (x >>= f) (y >>= g)
  failure : ∀ {α : Type} (fault : Fault), (fault.isIllFormed = true → AnyTree) →
    Holds (fail fault : Run α) (fail fault)
  exhaustion : ∀ {α : Type}, Holds (outOfFuel : Run α) outOfFuel
  change : ∀ {α : Type} {x y : Run α} {f : Failure → Failure}, Allows f → Holds x y →
    Holds (x.mapFailure f) (y.mapFailure f)
  inspecting : ∀ {α : Type} {x y : Run α} (id : Identity) (again : α), Holds x y →
    Holds (guardInspecting id again x) (guardInspecting id again y)
  comparing : ∀ {x y : Run Bool} (pair : Identity × Identity), Holds x y →
    Holds (guardComparing pair x) (guardComparing pair y)
  question : ∀ {α : Type} (f : Heap → α), Holds (reading f) (reading f)
  heap : ∀ f : Heap → Heap, Holds (modifyHeap f) (modifyHeap f)
  cell : ∀ {α : Type} (f : Heap → α × Heap), Holds (alloc f) (alloc f)
  native : ∀ n : Native, Holds (newNative n) (newNative n)
  output : ∀ text : String, Holds (write text) (write text)
  random : Holds randomBits randomBits

namespace Law

/-- The law holds between a computation and itself. -/
abbrev Keeps (L : Law) (x : Run α) : Prop := L.Holds x x

/-- The law holds between all that two evaluators do. -/
abbrev Joins (L : Law) (I J : Interp) : Prop := ∀ task, L.Holds (I task) (J task)

/-- The law holds between what two evaluators do for calls. -/
abbrev JoinsCalls (L : Law) (I J : Interp) : Prop :=
  ∀ c receiver args block,
    L.Holds (I (.invoke c receiver args block)) (J (.invoke c receiver args block))

/-- The law holds between what two evaluators do for a node. -/
abbrev JoinsAt (L : Law) (I J : Interp) (node : Node) : Prop :=
  ∀ scope, L.Holds (I (.eval scope node)) (J (.eval scope node))

/-- The law holds between what two evaluators do to load a source. -/
abbrev JoinsLoading (L : Law) (I J : Interp) : Prop :=
  ∀ path, L.Holds (I.require path) (J.require path)

/-- Places of a span may be noted in failures. -/
def Tags (L : Law) (span : Span) : Prop := ∀ action, L.Allows (·.tag span action)

variable {L : Law} {x y : Run α}

@[grind ←]
theorem Holds.bind {f g : α → Run β} (hx : L.Holds x y) (hf : ∀ a, L.Holds (f a) (g a)) :
    L.Holds (x >>= f) (y >>= g) :=
  L.sequence hx hf

theorem Holds.mapFailure {change : Failure → Failure} (hx : L.Holds x y)
    (hchange : L.Allows change) : L.Holds (x.mapFailure change) (y.mapFailure change) :=
  L.change hchange hx

@[grind ←]
theorem Holds.tagged {span : Span} (hx : L.Holds x y) (hspan : L.Tags span) (action : Action) :
    L.Holds (x.tagged span action) (y.tagged span action) :=
  hx.mapFailure (hspan action)

@[grind ←]
theorem Holds.guardInspecting (hx : L.Holds x y) (id : Identity) (again : α) :
    L.Holds (guardInspecting id again x) (guardInspecting id again y) :=
  L.inspecting id again hx

@[grind ←]
theorem Holds.guardComparing {x y : Run Bool} (hx : L.Holds x y) (pair : Identity × Identity) :
    L.Holds (guardComparing pair x) (guardComparing pair y) :=
  L.comparing pair hx

end Law

variable {L : Law}

/-! ## Single steps -/

@[grind .]
theorem holds_pure (a : α) : L.Keeps (pure a : Run α) := L.result a

@[grind ←]
theorem holds_fail {fault : Fault} (hfault : fault.isIllFormed = false) :
    L.Keeps (fail fault : Run α) :=
  L.failure fault fun h => absurd h (Bool.eq_false_iff.1 hfault)

theorem holds_fail_of_anyTree (h : L.AnyTree) (fault : Fault) : L.Keeps (fail fault : Run α) :=
  L.failure fault fun _ => h

@[grind .]
theorem holds_outOfFuel : L.Keeps (outOfFuel : Run α) := L.exhaustion

@[grind .]
theorem holds_reading (f : Heap → α) : L.Keeps (reading f) := L.question f

@[grind .]
theorem holds_modifyHeap (f : Heap → Heap) : L.Keeps (modifyHeap f) := L.heap f

@[grind .]
theorem holds_alloc (f : Heap → α × Heap) : L.Keeps (alloc f) := L.cell f

@[grind .]
theorem holds_newNative (n : Native) : L.Keeps (newNative n) := L.native n

@[grind .]
theorem holds_write (text : String) : L.Keeps (write text) := L.output text

@[grind .]
theorem holds_randomBits : L.Keeps randomBits := L.random

/-! ## What is built from them -/

@[grind ←]
theorem holds_ofOption {fault : Fault} (hfault : fault.isIllFormed = false) (o : Option α) :
    L.Keeps (ofOption fault o) := by
  unfold ofOption
  grind

@[grind .]
theorem holds_readingSome (f : Heap → Option α) : L.Keeps (readingSome f) := by
  unfold readingSome
  grind

@[grind .]
theorem holds_newText (s : String) : L.Keeps (newText s) := by
  unfold newText
  grind

@[grind .]
theorem holds_newChars (cs : List Char) : L.Keeps (newChars cs) := holds_newText _

@[grind .]
theorem holds_newArray (items : Array Value) : L.Keeps (newArray items) := by
  unfold newArray
  grind

@[grind .]
theorem holds_newList (items : List Value) : L.Keeps (newList items) := holds_newArray _

@[grind .]
theorem holds_newTexts (texts : List String) : L.Keeps (newTexts texts) := by
  induction texts with
  | nil => exact holds_pure _
  | cons s rest ih =>
    unfold newTexts
    grind

@[grind .]
theorem holds_newHash (pairs : List (Value × Value)) : L.Keeps (newHash pairs) := by
  unfold newHash
  grind

@[grind .]
theorem holds_randomFloat : L.Keeps randomFloat := by
  unfold randomFloat
  grind

@[grind .]
theorem holds_randomBelow (bound : Nat) : L.Keeps (randomBelow bound) := by
  unfold randomBelow
  grind

@[grind .]
theorem holds_wrongCount (args : List Value) (least : Nat) (greatest : Option Nat) :
    L.Keeps (wrongCount args least greatest : Run α) := holds_fail rfl

@[grind .]
theorem holds_wrongShape (v : Value) (wanted : Shape) : L.Keeps (wrongShape v wanted : Run α) :=
  holds_fail rfl

@[grind .]
theorem holds_needBlock (block : Option Callable) : L.Keeps (needBlock block) :=
  holds_ofOption rfl _

@[grind .]
theorem holds_needClass (v : Value) : L.Keeps (needClass v) := by
  unfold needClass
  grind

@[grind .]
theorem holds_single (args : List Value) : L.Keeps (single args) := by
  unfold single
  grind

@[grind .]
theorem holds_needs (wanted : Shape) (f : Heap → Value → Option α) (v : Value) :
    L.Keeps (needs wanted f v) := by
  unfold needs
  grind

@[grind .]
theorem holds_needInt (v : Value) : L.Keeps (needInt v) := holds_needs _ _ v

@[grind .]
theorem holds_needFloat (v : Value) : L.Keeps (needFloat v) := holds_needs _ _ v

@[grind .]
theorem holds_needSymbol (v : Value) : L.Keeps (needSymbol v) := holds_needs _ _ v

@[grind .]
theorem holds_needName (v : Value) : L.Keeps (needName v) := holds_needs _ _ v

@[grind .]
theorem holds_needText (v : Value) : L.Keeps (needText v) := holds_needs _ _ v

@[grind .]
theorem holds_needTextRef (v : Value) : L.Keeps (needTextRef v) := holds_needs _ _ v

@[grind .]
theorem holds_needList (v : Value) : L.Keeps (needList v) := holds_needs _ _ v

@[grind .]
theorem holds_needTable (v : Value) : L.Keeps (needTable v) := holds_needs _ _ v

@[grind .]
theorem holds_needRange (v : Value) : L.Keeps (needRange v) := holds_needs _ _ v

@[grind .]
theorem holds_needProc (v : Value) : L.Keeps (needProc v) := holds_needs _ _ v

@[grind .]
theorem holds_needItems (v : Value) : L.Keeps (needItems v) := by
  unfold needItems
  grind

@[grind .]
theorem holds_intArgument (args : List Value) : L.Keeps (intArgument args) := by
  unfold intArgument
  grind

@[grind .]
theorem holds_textArgument (args : List Value) : L.Keeps (textArgument args) := by
  unfold textArgument
  grind

@[grind .]
theorem holds_needNames (args : List Value) : L.Keeps (needNames args) := by
  induction args with
  | nil => exact holds_pure _
  | cons v rest ih =>
    unfold needNames
    grind

@[grind .]
theorem holds_exactly (x : Option Int64) : L.Keeps (exactly x) := by
  unfold exactly
  grind

@[grind .]
theorem holds_checkSize (size : Nat) : L.Keeps (checkSize size) := by
  unfold checkSize
  grind

@[grind ←]
theorem holds_foldInts {f g : α → Int64 → Run α} (hf : ∀ acc i, L.Holds (f acc i) (g acc i))
    (step : Int) (count : Nat) (i : Int) (acc : α) :
    L.Holds (foldInts step f count i acc) (foldInts step g count i acc) := by
  induction count generalizing i acc with
  | zero => exact holds_pure _
  | succ count ih =>
    unfold foldInts
    grind

end Run

/-! ## Calling methods -/

namespace Interp

open Run

variable {L : Law} {I J : Interp}

@[grind ←]
theorem holds_yieldTo (hi : L.JoinsCalls I J) (block : Callable) (receiver : Value)
    (args : List Value) : L.Holds (I.yieldTo block receiver args) (J.yieldTo block receiver args) :=
  hi _ _ _ _

@[grind .]
theorem holds_noMethod (receiver : Value) (name : String) :
    L.Keeps (noMethod receiver name : Run α) := by
  unfold noMethod
  grind

@[grind .]
theorem holds_textOr (v answer : Value) : L.Keeps (textOr v answer) := by
  unfold textOr
  grind

variable (hi : L.JoinsCalls I J)
include hi

@[grind ←]
theorem holds_send (receiver : Value) (name : String) (args : List Value) (block : Option Callable)
    : L.Holds (I.send receiver name args block) (J.send receiver name args block) := by
  unfold send
  grind -funext

@[grind ←]
theorem holds_sendImplicit (scope : ScopeRef) (name : String) (args : List Value)
    (block : Option Callable) :
    L.Holds (I.sendImplicit scope name args block) (J.sendImplicit scope name args block) := by
  unfold sendImplicit
  grind -funext

@[grind ←]
theorem holds_text (v : Value) : L.Holds (I.text v) (J.text v) := by
  unfold text
  grind -funext

@[grind ←]
theorem holds_inspect (v : Value) : L.Holds (I.inspect v) (J.inspect v) := by
  unfold inspect
  grind -funext

@[grind ←]
theorem holds_inspectAll (vs : List Value) : L.Holds (I.inspectAll vs) (J.inspectAll vs) := by
  induction vs with
  | nil => exact holds_pure _
  | cons v rest ih =>
    unfold inspectAll
    grind -funext

@[grind ←]
theorem holds_equals (v w : Value) : L.Holds (I.equals v w) (J.equals v w) := by
  unfold equals
  grind -funext

@[grind ←]
theorem holds_order (v w : Value) : L.Holds (I.order v w) (J.order v w) := by
  unfold order
  grind -funext

omit hi

@[grind ←]
theorem holds_body (scope : ScopeRef) (last : Value) {nodes : List Node}
    (hnodes : ∀ node ∈ nodes, L.JoinsAt I J node) :
    L.Holds (I.body scope last nodes) (J.body scope last nodes) := by
  induction nodes generalizing last with
  | nil => exact holds_pure _
  | cons node rest ih =>
    obtain ⟨hnode, hrest⟩ := List.forall_mem_cons.1 hnodes
    exact (hnode scope).bind fun v => ih v hrest

end Interp

end Spinel
