import Spinel.Proofs.Law.Loading
import Spinel.Proofs.Law.Quotation
import Spinel.Proofs.Run.Constants

/-!
# Targets of assignments and paths of classes

What the grammar takes for a target or a path is what the evaluator has a case for. So no program
that was read from a text fails because of the shape of its tree, nor does anything else that a host
does (`Session.targets_and_paths_fit`): to have no failure of this kind is a law, which holds for
sound trees only, and in the states that hosts reach all trees are sound.
-/

namespace Spinel

open Run

variable {α β : Type} {I : Interp}

theorem Fault.isIllFormed_eq_false_iff {fault : Fault} :
    fault.isIllFormed = false ↔
      fault ≠ .notImplemented "assignment to this target" ∧
        fault ≠ .notImplemented "class path" := by
  unfold isIllFormed
  cases fault with
  | notImplemented what => simp
  | _ => simp

/-! ## Failures that are not about trees -/

/-- Failures are not because of the shape of a tree, and the resolver fails only for paths that
cannot be loaded. -/
def Shelf.formed : Shelf where
  AnyTree := False
  see _ resolve := resolve
  Tidy _ _ resolve := resolve.FailsToLoad
  tidy_load _ h := h
  tidy_ask h := h
  Fine _ f := f.fault.isIllFormed = false
  fine_fault _ _ h := Bool.eq_false_iff.2 h
  fine_load h hf := congrArg (·.fault.isIllFormed) (h _ _ _ hf)

namespace Run

/-- A computation that does not fail because of the shape of a tree, with any resolver that fails
only for paths that cannot be loaded. -/
abbrev WellFormed (x : Run α) : Prop := Shelf.formed.law.Keeps x

theorem WellFormed.isIllFormed_eq_false {x : Run α} (h : WellFormed x) {w w' : World} {f : Failure}
    (hw : w.host.resolve.FailsToLoad) (hfails : x w = .error (.failed f) w') :
    f.fault.isIllFormed = false :=
  (Shelf.isGood_iff.1 (h w hw).2).2 f w' hfails

theorem not_wellFormed_fail {fault : Fault} (hfault : fault.isIllFormed = true) (span : Span)
    (action : Action) : ¬((fail fault : Run α).tagged span action).WellFormed := by
  intro h
  have hformed := h.isIllFormed_eq_false (w := Session.start) Resolver.failsToLoad_none rfl
  exact absurd hfault (Bool.eq_false_iff.1 hformed)

theorem tags_formed (span : Span) : Shelf.formed.law.Tags span := fun _ _ _ h => h

end Run

/-! ## The evaluator -/

namespace Interp

theorem store_of_not_assignable {target : Node} (h : target.form.isAssignable = false)
    (scope : ScopeRef) (v : Value) :
    I.store scope target v =
      (fail (.notImplemented "assignment to this target")).tagged target.span .assigning := by
  unfold store
  split
  case h_9 => rfl
  all_goals grind [Form.isAssignable]

theorem location_of_not_classPath {path : Node} (h : path.form.isClassPath = false)
    (scope : ScopeRef) :
    I.location scope path =
      (fail (.notImplemented "class path")).tagged path.span .definingClass := by
  unfold location
  split
  case h_3 => rfl
  all_goals grind [Form.isClassPath]

/-- What can be assigned to has its own case, and nothing else has one: the shape of a target is no
reason to fail then. -/
theorem isAssignable_iff_wellFormed_store {target : Node} :
    target.form.isAssignable = true ↔
      ∀ interp : Interp, (∀ task, (interp task).WellFormed) →
        ∀ scope v, (interp.store scope target v).WellFormed := by
  constructor
  · intro htarget interp hinterp scope v
    exact holds_store (fun _ _ _ _ => hinterp _) scope (.inr htarget) (tags_formed _)
      (fun _ _ _ => hinterp _) v
  · intro h
    by_contra hnot
    have hfits := h (fun _ => outOfFuel) (fun _ => holds_outOfFuel) Core.root .nil
    rw [store_of_not_assignable (Bool.eq_false_iff.2 hnot)] at hfits
    exact not_wellFormed_fail (by decide) _ _ hfits

theorem isClassPath_iff_wellFormed_location {path : Node} :
    path.form.isClassPath = true ↔
      ∀ interp : Interp, (∀ task, (interp task).WellFormed) →
        ∀ scope, (interp.location scope path).WellFormed := by
  constructor
  · intro hpath interp hinterp scope
    exact holds_location scope (.inr hpath) (tags_formed _) (fun _ _ _ => hinterp _)
  · intro h
    by_contra hnot
    have hfits := h (fun _ => outOfFuel) (fun _ => holds_outOfFuel) Core.root
    rw [location_of_not_classPath (Bool.eq_false_iff.2 hnot)] at hfits
    exact not_wellFormed_fail (by decide) _ _ hfits

variable (hI : ∀ task, (I task).WellFormed)
include hI

theorem wellFormed_runStream (s : Stream) (label : String) :
    (I.runStream s label).WellFormed := by
  have hnumber : (newSource label).WellFormed := fun _ hw => ⟨rfl, hw⟩
  unfold runStream
  refine hnumber.bind fun source => ?_
  split
  · next nodes code _ =>
    have hbody : (I.body Core.root .nil nodes).WellFormed :=
      holds_body Core.root .nil fun node _ _ => hI _
    exact hbody.mapFailure fun _ _ h => h
  · exact fun _ hw => ⟨rfl, hw, rfl⟩
  · exact holds_outOfFuel

theorem wellFormed_require (path : String) : (I.require path).WellFormed :=
  Shelf.coversLoading_law (fun _ => rfl) fun _ => wellFormed_runStream hI _ path

end Interp

/-! ## Sound trees -/

theorem Node.Within.sound {nodes : List Node} {node : Node} (h : Within nodes node)
    (hnodes : ∀ top ∈ nodes, top.Sound) : node.Sound := by
  induction h with
  | top hmem => exact hnodes _ hmem
  | inside _ hmem ih => exact ih.child _ hmem

/-- The path under which a form opens a class or a module. -/
def Form.classPath? : Form → Option Node
  | .openClass path _ _ | .openModule path _ => some path
  | _ => none

theorem Form.Sound.isClassPath {form : Form} {path : Node} (h : form.Sound)
    (hpath : form.classPath? = some path) : path.form.isClassPath = true := by
  cases form with
  | openClass inner superclass body | openModule inner body =>
    obtain rfl := Option.some.inj hpath
    exact Form.IsPlainPath.isClassPath h
  | _ => exact absurd hpath (Option.some_ne_none path).symm

/-- The trees of a task are as the grammar makes them. -/
def Task.IsSound : Task → Prop
  | .eval _ node => node.Sound
  | .invoke (.method m _) _ _ _ => ∀ node ∈ m.body, node.Sound
  | .invoke (.block b _) _ _ _ => ∀ node ∈ b.body, node.Sound
  | .invoke (.builtin _) _ _ _ | .invoke (.native ..) _ _ _ => True

theorem Task.Ready.isSound {w : World} {task : Task}
    (ht : @Task.Ready (.free True) w.heap task) : task.IsSound := by
  cases task with
  | eval scope node => exact ht.2 trivial
  | invoke c receiver args block =>
    cases c with
    | method m s => exact fun node hnode => ht.1.1.2 node hnode trivial
    | block b s => exact fun node hnode => ht.1.1.2 node hnode trivial
    | builtin b | native serial m => trivial

theorem wellFormed_step (hI : ∀ task, (I task).WellFormed) {task : Task} (htask : task.IsSound)
    (n : Nat) : (step n I task).WellFormed := by
  have hat : ∀ node, Shelf.formed.law.JoinsAt I I node := fun _ _ => hI _
  have hserved : task.Served Shelf.formed.law I I := by
    cases task with
    | eval scope node =>
      refine ⟨⟨.inr htask.form, tags_formed _, fun _ _ => tags_formed _, fun _ _ => hat _,
        fun _ _ _ _ => hat _⟩, fun _ f hf => ?_⟩
      exact (congrArg Fault.isIllFormed (f.fault_tagFirst node.span .evaluating)).trans hf
    | invoke c receiver args block =>
      cases c with
      | method m captured | block b captured => exact ⟨fun _ _ h => h, fun _ _ => hat _⟩
      | builtin b | native serial m => trivial
  exact holds_step (fun _ _ _ _ => hI _) hserved (fun _ path => Interp.wellFormed_require hI path) n

/-- An evaluator that stops before trees that the grammar does not make never fails because of their
shape. -/
theorem wellFormed_watched (n : Nat) (task : Task) :
    (watched (fun _ task => task.IsSound) outOfFuel n task).WellFormed := by
  induction n generalizing task with
  | zero => exact holds_outOfFuel
  | succ n ih =>
    refine Shelf.follows_self (fun _ => rfl) fun w hw => ?_
    unfold watched
    split
    · next htask => exact (wellFormed_step ih htask n w hw).2
    · exact hw

/-! ## States that hosts reach -/

namespace Session

/-- What a host hands to a session is what it got from it: programs are read from texts, and values
and classes are on the heap. It gives its own name to no constant that is no class, and makes
objects only of classes whose instances have nothing but slots. -/
def Action.Fits [S : Secrecy] (h : Heap) : Action → Prop
  | .run p => S.fromText → p.IsRead
  | .call receiver _ args => Lives h receiver ∧ Lives h args
  | .text v | .inspect v | .setGlobal _ v => Lives h v
  | .defineClass name superclass enclosing =>
    let outer := enclosing.getD Core.object
    Lives h (.klass outer : Value) ∧ Lives h (superclass.map Value.klass) ∧
      (S.fromText → IsPlainName name) ∧
      ∀ v, (h.klass outer).constants.get? name = some v → ∃ c, v = .klass c
  | .newData c _ =>
    Lives h (.klass c : Value) ∧ (h.ancestors c).findSome? Creation.decides = none
  | .respondsTo .. | .global _ | .constant _ | .defineInstanceMethod .. | .defineClassMethod ..
  | .takeOutput => True

theorem safe_defineClass [S : Secrecy] {w : World} {name : String}
    {superclass enclosing : Option ClassRef}
    (h : (Action.defineClass name superclass enclosing).Fits w.heap) :
    Tracks w (Session.defineClass name superclass enclosing)
      (Session.defineClass name superclass enclosing) fun _ _ => True := by
  obtain ⟨houter, hsuper, hname, hconstant⟩ := h
  refine (asks_reading (Q := fun h o => (h.klass (enclosing.getD Core.object)).constants.get? name =
    o) fun _ => rfl).bind fun o ho => ?_
  split
  · exact tracks_pure trivial
  · next hnot =>
    have hfree : (w.heap.klass (enclosing.getD Core.object)).constants.get? name = none := by
      cases o with
      | none => exact ho
      | some v =>
        obtain ⟨c, rfl⟩ := hconstant v ho
        exact absurd rfl (hnot c)
    exact (Interp.safe_newClass houter hname hfree false hsuper).mono fun _ _ _ => trivial

/-- What a host does keeps heaps regular. -/
theorem Action.safe_performBy [S : Secrecy] {i j : Interp} (hij : i.Agrees j) {w : World}
    {a : Action} (ha : a.Fits w.heap) : Safe w (a.performBy i) (a.performBy j) := by
  have hdone : ∀ {α : Type} {x y : Run α} {Q : Heap → α → Prop}, Tracks w x y Q →
      Safe w (x >>= fun _ => pure ()) (y >>= fun _ => pure ()) :=
    fun hx => hx.bind fun _ _ _ _ => tracks_pure trivial
  cases a with
  | run p => exact hdone (Program.safe_run hij ha)
  | call receiver name args => exact hdone (Interp.safe_send hij ha.1 name ha.2 lives_none)
  | text v => exact hdone (Interp.safe_text hij ha)
  | inspect v => exact hdone (Interp.safe_inspect hij ha)
  | respondsTo v name | global name | constant name =>
    exact (asks_anything _).bind fun _ _ => tracks_pure trivial
  | setGlobal name v =>
    exact tracks_modifyHeap (f := (·.defineLocal Core.root name v)) fun _ =>
      Heap.keeps_defineLocal ha
  | defineClass name superclass enclosing => exact hdone (safe_defineClass ha)
  | defineInstanceMethod c name m =>
    exact (safe_newNative _).bind fun _ _ _ hm => tracks_modifyHeap fun _ => Heap.keeps_setMethod hm
  | defineClassMethod c name m =>
    refine (safe_newNative _).bind fun m w' _ hm => ?_
    have hsingleton : Tracks w' (alloc (·.classSingleton c)) (alloc (·.classSingleton c))
        fun _ _ => True :=
      tracks_alloc (fun _ => Heap.keeps_classSingleton) fun _ => trivial
    exact hsingleton.bind fun _ _ e _ =>
      tracks_modifyHeap fun _ => Heap.keeps_setMethod (hm.later e)
  | newData c data =>
    refine hdone (Q := fun _ _ => True) ((tracks_alloc (Q := fun _ _ => True) (fun _ => ?_)
      fun _ => trivial).bind fun _ _ _ _ => tracks_pure trivial)
    refine Heap.keeps_newObject ⟨ha.1, OrderedMap.lives_empty, fun _ hs => ?_, ?_, lives_none⟩
    · cases hs
    · exact ha.2 ▸ .nothing
  | takeOutput => exact fun _ => ⟨rfl, .refl _, trivial⟩

/-- The states that a host reaches by such actions, which may fail. -/
inductive Reaches (w : World) : World → Prop
  | start : Reaches w w
  | act {w' : World} (h : Reaches w w') (a : Action) (ha : @Action.Fits (.free True) w'.heap a) :
    Reaches w (a.perform.after w')

theorem Reaches.regular {w w' : World} (h : Reaches w w')
    (hr : @Heap.Regular (.free True) w.heap) : @Heap.Regular (.free True) w'.heap := by
  induction h with
  | start => exact hr
  | act _ a ha ih =>
    have hsafe := Action.safe_performBy (S := .free True) (agrees_interpreter depth) ha
    exact a.performBy_evaluator ▸ (hsafe.keeps_after ih).2

theorem Reaches.host_eq {w w' : World} (h : Reaches w w') : w'.host = w.host := by
  induction h with
  | start => rfl
  | @act w' _ a _ ih =>
    have hhost : (a.perform.after w').host = w'.host :=
      ((a.obeys_perform (R := World.LoadsOn)).frame_after w').2.2
    exact hhost.trans ih

theorem Program.wellFormed_run (hI : ∀ task, (I task).WellFormed) (p : Program) :
    (p.run I).WellFormed := by
  cases p with
  | main code => exact fun w => Interp.wellFormed_runStream hI _ w.sourceName w
  | text code label => exact Interp.wellFormed_runStream hI _ label
  | stream s label => exact Interp.wellFormed_runStream hI s label
  | required path => exact (Interp.wellFormed_require hI path).bind fun _ => holds_pure _
  | statements nodes => exact Interp.holds_body _ _ fun node _ _ => hI _

/-- What is done on a regular heap of sound trees, and the same with an evaluator that stops before
other trees, does not fail because of their shape. -/
theorem isIllFormed_eq_false_of_safe {x : Interp → Run α} {Q : Heap → α → Prop} {w w' : World}
    {f : Failure} (hx : @Tracks (.free True) _ w (x evaluator)
      (x (watched (fun _ task => task.IsSound) outOfFuel depth)) Q)
    (hform : ∀ I : Interp, (∀ task, (I task).WellFormed) → (x I).WellFormed)
    (hr : @Heap.Regular (.free True) w.heap) (hw : w.host.resolve.FailsToLoad)
    (hfails : x evaluator w = .error (.failed f) w') : f.fault.isIllFormed = false :=
  (hform _ (wellFormed_watched depth)).isIllFormed_eq_false hw ((hx hr).1.trans hfails)

/-- Neither what a host does nor programs that are read from texts fail because of the shapes of
targets and paths, in any state that a host reaches, with a resolver that fails only for paths that
cannot be loaded. In a tree that is read, all targets can be assigned to and all paths name
something, and these are the targets and paths that the evaluator has cases for. -/
theorem targets_and_paths_fit (sourceName : String) (host : Host) (w : World)
    (hload : host.resolve.FailsToLoad) (hw : Reaches (start sourceName host) w) :
    (∀ p : Program, p.IsRead → ∀ f w', p.run evaluator w = .error (.failed f) w' →
      f.fault ≠ .notImplemented "assignment to this target" ∧
        f.fault ≠ .notImplemented "class path") ∧
    (∀ a : Action, @Action.Fits (.free True) w.heap a →
      ∀ f w', a.perform w = .error (.failed f) w' →
        f.fault ≠ .notImplemented "assignment to this target" ∧
          f.fault ≠ .notImplemented "class path") ∧
    (∀ source s body text, Grammar.parse source s = (.program body, text) →
      ∀ node, Node.Within body node →
        (∀ target value, node.form = .assign target value → target.form.isAssignable = true) ∧
        ∀ path, node.form.classPath? = some path → path.form.isClassPath = true) ∧
    (∀ target : Node, target.form.isAssignable = true ↔
      ∀ interp : Interp, (∀ task, (interp task).WellFormed) →
        ∀ scope v, (interp.store scope target v).WellFormed) ∧
    ∀ path : Node, path.form.isClassPath = true ↔
      ∀ interp : Interp, (∀ task, (interp task).WellFormed) →
        ∀ scope, (interp.location scope path).WellFormed := by
  have hr := hw.regular (@Core.regular_of_unreserved (.free True) fun _ hc => hc)
  have hresolve : w.host.resolve.FailsToLoad := by
    rw [hw.host_eq]
    exact hload
  have hagrees := @agrees_watched True (fun _ task => task.IsSound)
    (fun _ _ _ ht => ht.isSound) outOfFuel depth
  refine ⟨fun p hp f w' hfails => ?_, fun a ha f w' hfails => ?_,
    fun source s body text hparse node hnode => ?_,
    fun _ => Interp.isAssignable_iff_wellFormed_store,
    fun _ => Interp.isClassPath_iff_wellFormed_location⟩
  · have hsafe := Program.safe_run (S := .free True) (w := w) hagrees fun _ => hp
    refine Fault.isIllFormed_eq_false_iff.1 ?_
    exact isIllFormed_eq_false_of_safe hsafe (fun _ hI => p.wellFormed_run hI) hr hresolve hfails
  · have hsafe := Action.safe_performBy (S := .free True) hagrees ha
    rw [← a.performBy_evaluator] at hfails
    refine Fault.isIllFormed_eq_false_iff.1 ?_
    exact isIllFormed_eq_false_of_safe hsafe (fun _ hI => Action.holds_performBy_of_run
      (fun _ _ _ _ => hI _) (fun _ hw => ⟨rfl, hw⟩) fun p _ => p.wellFormed_run hI)
      hr hresolve hfails
  · have hsound : node.form.Sound := (hnode.sound (Grammar.sound_of_parse hparse)).form
    refine ⟨fun target value hform => ?_, fun path hpath => ?_⟩
    · rw [hform] at hsound
      exact hsound
    · exact hsound.isClassPath hpath

/-- What a host does before the program below: it runs one that makes a module to put constants in,
and defines a variable. -/
def opening : List Action := [.run (.text "module M\nend" "main"), .setGlobal "$n" (.int 1)]

/-- Assignments to targets of most kinds, then a path to something that is no class. -/
def assigning : Program :=
  .text "a = [$n]\n(a)[0] += 2\nM::K = @b = $c = a[0]\nputs M::K\nclass M::K::D\nend" "main"

theorem reaches_opening : Reaches start (afterActions start opening) := by
  have hrun := (Reaches.start (w := start)).act (.run (.text "module M\nend" "main"))
    fun _ => trivial
  exact hrun.act (.setGlobal "$n" (.int 1)) trivial

/-- All assignments were done. -/
theorem targets_and_paths_fit_assigning :
    let w := afterActions start opening
    Reaches start w ∧ assigning.IsRead ∧
      ((assigning.run evaluator).after w).output = "3\n" ∧
      (∀ f w', assigning.run evaluator w = .error (.failed f) w' →
        f.fault ≠ .notImplemented "assignment to this target" ∧
          f.fault ≠ .notImplemented "class path") :=
  ⟨reaches_opening, trivial, by decide +kernel,
    (targets_and_paths_fit "main" {} _ Resolver.failsToLoad_none reaches_opening).1 _ trivial⟩

end Session

end Spinel
