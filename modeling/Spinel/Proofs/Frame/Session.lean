import Spinel.Proofs.Frame.Rules

/-!
# Sessions obey every frame

The evaluator obeys every frame, at every depth, and so does what it is used for. A frame holds
across each action of a session and so between any two of its states (`Session.frame_afterActions`).
-/

namespace Spinel

open Run

variable {α : Type} {R : World → World → Prop}

theorem Run.Obeys.frame_after {x : Run α} (hx : Obeys R x) (w : World) : R w (x.after w) := by
  unfold Run.after
  cases hw : x w with
  | ok a w' => exact hx.of_ok hw
  | error e w' => exact hx.of_error hw

variable [World.Frame R]

/-- The evaluator obeys every frame, however deep it goes. -/
theorem obeys_interpreter (n : Nat) (task : Task) : Obeys R (interpreter n task) :=
  holds_interpreter (covers_frameLaw (R := R)) obeys_require_of_runText n task

namespace Interp

variable {interp : Interp} (hi : ∀ task, Obeys R (interp task))
include hi

theorem obeys_body (scope : ScopeRef) (last : Value) (nodes : List Node) :
    Obeys R (interp.body scope last nodes) :=
  holds_body (L := frameLaw R) (J := interp) scope last fun _ _ _ => hi _

theorem obeys_send (receiver : Value) (name : String) (args : List Value)
    (block : Option Callable) : Obeys R (interp.send receiver name args block) :=
  holds_send (L := frameLaw R) (J := interp) (fun _ _ _ _ => hi _) receiver name args block

theorem obeys_text (v : Value) : Obeys R (interp.text v) :=
  holds_text (L := frameLaw R) (J := interp) (fun _ _ _ _ => hi _) v

theorem obeys_inspect (v : Value) : Obeys R (interp.inspect v) :=
  holds_inspect (L := frameLaw R) (J := interp) (fun _ _ _ _ => hi _) v

theorem obeys_runStream (s : Stream) (label : String) : Obeys R (interp.runStream s label) :=
  holds_runStream (J := interp) covers_frameLaw hi s label

theorem obeys_runText (code label : String) : Obeys R (interp.runText code label) :=
  holds_runText (J := interp) covers_frameLaw hi code label

theorem obeys_require (path : String) : Obeys R (interp.require path) :=
  holds_require (J := interp) covers_frameLaw hi obeys_require_of_runText path

end Interp

namespace Session

theorem Action.obeys_perform (a : Action) : Obeys R a.perform := by
  have hby : Obeys R (a.performBy evaluator) :=
    a.holds_performBy covers_frameLaw (J := evaluator) (obeys_interpreter depth)
      fun path _ => Interp.obeys_require (obeys_interpreter depth) path
  rwa [a.performBy_evaluator] at hby

/-- A frame holds between the states before and after any actions. -/
theorem frame_afterActions (w : World) (as : List Action) : R w (afterActions w as) := by
  induction as generalizing w with
  | nil => exact World.Frame.refl w
  | cons a rest ih => exact World.Frame.trans (a.obeys_perform.frame_after w) (ih _)

end Session

end Spinel
