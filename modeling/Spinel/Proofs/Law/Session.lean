import Spinel.Proofs.Law.Evaluation
import Spinel.Proofs.Run.Reachable

/-!
# Sessions keep every law

All that a host can do with a session, as one type of actions. A law that covers sources joins what
an action does with one evaluator to what it does with another (`Session.Action.holds_performBy`),
and the evaluator to itself at every depth (`holds_interpreter`).
-/

namespace Spinel

open Run

variable {L : Law} {I J : Interp}

/-- A law that goes along with all trees and all changes of failures, and also holds for what is
done to run a source. -/
structure Run.Law.Covers (L : Law) : Prop where
  anyTree : L.AnyTree
  allows : ∀ change, L.Allows change
  numbering : ∀ label, L.Keeps (newSource label)
  halting : ∀ {α : Type} (e : Halt), L.Keeps (throw e : Run α)
  naming : ∀ {α : Type} {f g : String → Run α}, (∀ s, L.Holds (f s) (g s)) →
    L.Holds (do f (← get).sourceName) (do g (← get).sourceName)
  taking : L.Keeps Session.takeOutput

/-- A law that holds for loading sources if it holds for running them. -/
def Run.Law.CoversLoading (L : Law) : Prop :=
  ∀ {I J : Interp} {path : String},
    (∀ code, L.Holds (I.runText code path) (J.runText code path)) →
      L.Holds (I.require path) (J.require path)

/-! ## Sources -/

namespace Interp

/-- Loading a source: nothing if it was loaded, the failure of the resolver if it has one, and else
a run of the source with its path noted as loaded from the start. -/
theorem require_apply (I : Interp) (path : String) (w : World) :
    I.require path w =
      if path ∈ w.loaded then .ok false w
      else match w.host.resolve w.asked path with
        | .error f => .error (.failed f) { w with asked := path :: w.asked }
        | .ok code =>
          (I.runText code path >>= fun _ => pure true)
            { w with asked := path :: w.asked, loaded := path :: w.loaded } := by
  change (if w.loaded.contains path then _ else _ : Run Bool) w = _
  by_cases hmem : path ∈ w.loaded
  · rw [if_pos (List.contains_iff_mem.2 hmem), if_pos hmem]
    rfl
  · rw [if_neg (mt List.contains_iff_mem.1 hmem), if_neg hmem]
    rcases resolve_cases path w with ⟨code, hcode, hasked⟩ | ⟨f, hf, hasked⟩
    · rw [hcode, bind_of_ok hasked]
      rfl
    · rw [hf, bind_of_error hasked]

theorem require_of_loaded (I : Interp) {path : String} {w : World} (hmem : path ∈ w.loaded) :
    I.require path w = .ok false w := by
  rw [require_apply, if_pos hmem]

variable (hL : L.Covers) (hi : L.Joins I J)
include hL hi

theorem holds_runStream (s : Stream) (label : String) :
    L.Holds (I.runStream s label) (J.runStream s label) := by
  unfold runStream
  refine (hL.numbering label).bind fun source => ?_
  split
  · exact (holds_body Core.root .nil fun node _ scope => hi _).mapFailure (hL.allows _)
  · exact hL.halting _
  · exact holds_outOfFuel

theorem holds_runText (code label : String) :
    L.Holds (I.runText code label) (J.runText code label) :=
  holds_runStream hL hi _ _

theorem holds_require (hload : L.CoversLoading) : L.JoinsLoading I J :=
  fun path => hload fun code => holds_runText hL hi code path

end Interp

/-! ## The evaluator -/

theorem Run.Law.Covers.holds_step (hL : L.Covers) (hi : L.Joins I J) {task : Task}
    (hload : task.Loads → L.JoinsLoading I J) (n : Nat) :
    L.Holds (step n I task) (step n J task) := by
  have htags : ∀ span, L.Tags span := fun _ _ => hL.allows _
  have hat : ∀ node, L.JoinsAt I J node := fun _ _ => hi _
  have htask : task.Served L I J := by
    cases task with
    | eval scope node =>
      exact ⟨⟨.inl hL.anyTree, htags _, fun _ _ => htags _, fun _ _ => hat _, fun _ _ _ _ => hat _⟩,
        hL.allows _⟩
    | invoke c receiver args block =>
      cases c with
      | method m captured | block b captured => exact ⟨hL.allows _, fun _ _ => hat _⟩
      | builtin b | native serial m => trivial
  exact Spinel.holds_step (fun _ _ _ _ => hi _) htask hload n

/-- The evaluator is joined to itself, however deep it goes. -/
theorem holds_interpreter (hL : L.Covers) (hload : L.CoversLoading) (n : Nat) :
    L.Joins (interpreter n) (interpreter n) := by
  induction n with
  | zero => exact fun _ => holds_outOfFuel
  | succ n ih => exact fun _ => hL.holds_step ih (fun _ => Interp.holds_require hL ih hload) n

/-! ## Actions -/

namespace Session

theorem Program.holds_run (hL : L.Covers) (hi : L.Joins I J) {p : Program}
    (hload : ∀ path, p = .required path → L.Holds (I.require path) (J.require path)) :
    L.Holds (p.run I) (p.run J) := by
  cases p with
  | main code => exact hL.naming fun label => Interp.holds_runText hL hi code label
  | text code label => exact Interp.holds_runText hL hi code label
  | stream s label => exact Interp.holds_runStream hL hi s label
  | required path => exact (hload path rfl).bind fun _ => holds_pure _
  | statements nodes => exact Interp.holds_body _ _ fun node _ scope => hi _

/-- What a host does with a session: it runs a program, calls a method, looks at what is there, or
adds something of its own. -/
inductive Action where
  | run (p : Program)
  | call (receiver : Value) (name : String) (args : List Value)
  | text (v : Value)
  | inspect (v : Value)
  | respondsTo (v : Value) (name : String)
  | global (name : String)
  | setGlobal (name : String) (v : Value)
  | constant (name : String)
  | defineClass (name : String) (superclass enclosing : Option ClassRef)
  | defineInstanceMethod (c : ClassRef) (name : String) (m : HostMethod)
  | defineClassMethod (c : ClassRef) (name : String) (m : HostMethod)
  | newData (c : ClassRef) (data : Int64)
  | takeOutput

/-- Do something with a session, and drop the answer. -/
def Action.perform : Action → Run Unit
  | .run p => do let _ ← p.run evaluator
  | .call receiver name args => do let _ ← Session.call receiver name args
  | .text v => do let _ ← Session.text v
  | .inspect v => do let _ ← Session.inspect v
  | .respondsTo v name => do let _ ← Session.respondsTo v name
  | .global name => do let _ ← Session.global? name
  | .setGlobal name v => Session.setGlobal name v
  | .constant name => do let _ ← Session.constant? name
  | .defineClass name superclass enclosing => do
    let _ ← Session.defineClass name superclass enclosing
  | .defineInstanceMethod c name m => Session.defineInstanceMethod c name m
  | .defineClassMethod c name m => Session.defineClassMethod c name m
  | .newData c data => do let _ ← Session.newData c data
  | .takeOutput => do let _ ← Session.takeOutput

/-- Do something with a session by way of another evaluator. -/
def Action.performBy (interp : Interp) : Action → Run Unit
  | .run p => do let _ ← p.run interp
  | .call receiver name args => do let _ ← interp.send receiver name args none
  | .text v => do let _ ← interp.text v
  | .inspect v => do let _ ← interp.inspect v
  | a => a.perform

theorem Action.performBy_evaluator (a : Action) : a.performBy evaluator = a.perform := by
  cases a <;> rfl

/-- The state of a session after some actions, which may fail. -/
def afterActions (w : World) (as : List Action) : World :=
  as.foldl (fun w a => a.perform.after w) w

theorem holds_defineClass (name : String) (superclass enclosing : Option ClassRef) :
    L.Keeps (Session.defineClass name superclass enclosing) := by
  unfold Session.defineClass
  grind

/-- A law holds for an action if it holds for calls and for the program that is run. -/
theorem Action.holds_performBy_of_run (hcalls : L.JoinsCalls I J)
    (htaking : L.Keeps Session.takeOutput) {a : Action}
    (hrun : ∀ p, a = .run p → L.Holds (p.run I) (p.run J)) :
    L.Holds (a.performBy I) (a.performBy J) := by
  cases a with
  | run p => exact (hrun p rfl).bind fun _ => holds_pure _
  | call receiver name args =>
    exact (Interp.holds_send hcalls receiver name args none).bind fun _ => holds_pure _
  | text v => exact (Interp.holds_text hcalls v).bind fun _ => holds_pure _
  | inspect v => exact (Interp.holds_inspect hcalls v).bind fun _ => holds_pure _
  | respondsTo v name | global name | constant name =>
    exact (holds_reading _).bind fun _ => holds_pure _
  | setGlobal name v => exact holds_modifyHeap (·.defineLocal Core.root name v)
  | defineClass name superclass enclosing =>
    exact (holds_defineClass name superclass enclosing).bind fun _ => holds_pure _
  | defineInstanceMethod c name m =>
    exact (holds_newNative _).bind fun _ => holds_modifyHeap _
  | defineClassMethod c name m =>
    exact (holds_newNative _).bind fun _ => (holds_alloc _).bind fun _ => holds_modifyHeap _
  | newData c data =>
    exact ((holds_alloc _).bind fun _ => holds_pure _).bind fun _ => holds_pure _
  | takeOutput => exact htaking.bind fun _ => holds_pure _

theorem Action.holds_performBy (hL : L.Covers) (hi : L.Joins I J) {a : Action}
    (hload : ∀ path, a = .run (.required path) → L.Holds (I.require path) (J.require path)) :
    L.Holds (a.performBy I) (a.performBy J) :=
  Action.holds_performBy_of_run (fun _ _ _ _ => hi _) hL.taking fun _ ha =>
    Program.holds_run hL hi fun path h => hload path (h ▸ ha)

end Session

end Spinel
