import Spinel.Proofs.Law.Session

/-!
# What every computation leaves as it was

A frame is a relation between the worlds before and after a computation that holds across each
single change a computation makes, and across a guarded part once the guard is taken off again.
`Run.Obeys R x` says that it holds across `x`, whether that gives a value or fails. To obey a frame
is a law (`Run.frameLaw`), which covers sources as well, so all that evaluators do obeys every
frame, and what is particular to a frame is in its instance alone.
-/

namespace Spinel

/-- A relation that holds across everything that a computation does to the world by itself. -/
class World.Frame (R : World → World → Prop) : Prop where
  refl : ∀ w, R w w
  trans : ∀ {w w' w''}, R w w' → R w' w'' → R w w''
  heap : ∀ w heap, R w { w with heap }
  output : ∀ w given output, R w { w with given, output }
  drawn : ∀ w drawn, R w { w with drawn }
  asked : ∀ w path, R w { w with asked := path :: w.asked }
  natives : ∀ w, R w { w with natives := w.natives + 1 }
  sources : ∀ w, R w { w with sources := w.sources + 1 }
  /-- Each path is noted once. -/
  loaded : ∀ w path, path ∉ w.loaded → R w { w with loaded := path :: w.loaded }
  /-- What goes on while the text of something is made. -/
  inspecting : ∀ {w w' id}, R { w with inspecting := id :: w.inspecting } w' →
    R w { w' with inspecting := w'.inspecting.tail }
  /-- What goes on while two collections are compared. -/
  comparing : ∀ {w w' pair}, R { w with comparing := pair :: w.comparing } w' →
    R w { w' with comparing := w'.comparing.tail }

variable {α β : Type} {R : World → World → Prop}

namespace Run

/-- The relation holds between the worlds before and after the computation. -/
def Obeys (R : World → World → Prop) (x : Run α) : Prop :=
  ∀ w, match x w with
    | .ok _ w' | .error _ w' => R w w'

theorem Obeys.of_ok {x : Run α} {w w' : World} {a : α} (hx : Obeys R x) (hw : x w = .ok a w') :
    R w w' := by
  have hxw := hx w
  rwa [hw] at hxw

theorem Obeys.of_error {x : Run α} {w w' : World} {e : Halt} (hx : Obeys R x)
    (hw : x w = .error e w') : R w w' := by
  have hxw := hx w
  rwa [hw] at hxw

theorem Obeys.mapFailure {x : Run α} (hx : Obeys R x) (change : Failure → Failure) :
    Obeys R (x.mapFailure change) := by
  intro w
  unfold Run.mapFailure
  cases hw : x w with
  | ok a w' => exact hx.of_ok hw
  | error e w' =>
    cases e with
    | failed f => exact hx.of_error hw
    | outOfFuel => exact hx.of_error hw

variable [World.Frame R] {x : Run α} {f : α → Run β}

/-- A computation that obeys the frame goes on from where the frame holds. -/
theorem Obeys.after (hx : Obeys R x) {w w' : World} (hw : R w w') :
    match x w' with
    | .ok _ w'' | .error _ w'' => R w w'' := by
  cases hw' : x w' with
  | ok a w'' => exact World.Frame.trans hw (hx.of_ok hw')
  | error e w'' => exact World.Frame.trans hw (hx.of_error hw')

theorem Obeys.bind (hx : Obeys R x) (hf : ∀ a, Obeys R (f a)) : Obeys R (x >>= f) := by
  intro w
  rw [bind_apply]
  cases hw : x w with
  | ok a w' => exact (hf a).after (hx.of_ok hw)
  | error e w' => exact hx.of_error hw

theorem Obeys.guardInspecting (hx : Obeys R x) (id : Identity) (again : α) :
    Obeys R (guardInspecting id again x) := by
  intro w
  unfold Run.guardInspecting
  by_cases hid : w.inspecting.contains id
  · rw [if_pos hid]
    exact World.Frame.refl w
  · rw [if_neg hid]
    cases hw : x { w with inspecting := id :: w.inspecting } with
    | ok a w' => exact World.Frame.inspecting (hx.of_ok hw)
    | error e w' => exact World.Frame.inspecting (hx.of_error hw)

theorem Obeys.guardComparing {x : Run Bool} (hx : Obeys R x) (pair : Identity × Identity) :
    Obeys R (guardComparing pair x) := by
  intro w
  unfold Run.guardComparing
  by_cases hid : w.comparing.contains pair
  · rw [if_pos hid]
    exact World.Frame.refl w
  · rw [if_neg hid]
    cases hw : x { w with comparing := pair :: w.comparing } with
    | ok a w' => exact World.Frame.comparing (hx.of_ok hw)
    | error e w' => exact World.Frame.comparing (hx.of_error hw)

/-! ## The law of a frame -/

/-- To obey a frame is a law about one computation. -/
def frameLaw (R : World → World → Prop) [World.Frame R] : Law where
  Holds x _ := Obeys R x
  AnyTree := True
  Allows _ := True
  result _ w := World.Frame.refl w
  sequence := Obeys.bind
  failure _ _ w := World.Frame.refl w
  exhaustion w := World.Frame.refl w
  change _ hx := hx.mapFailure _
  inspecting id again hx := hx.guardInspecting id again
  comparing pair hx := hx.guardComparing pair
  question _ w := World.Frame.refl w
  heap f w := World.Frame.heap w (f w.heap)
  cell f w := World.Frame.heap w (f w.heap).2
  native _ w := World.Frame.natives w
  output text w := by
    rcases write_cases text w with hw | ⟨taken, message, hw⟩
    · rw [hw]
      exact World.Frame.output w _ _
    · rw [hw]
      exact World.Frame.output w _ _
  random w := World.Frame.drawn w _

theorem obeys_require_of_runText {interp : Interp} {path : String}
    (hrun : ∀ code, Obeys R (interp.runText code path)) : Obeys R (interp.require path) := by
  intro w
  rw [Interp.require_apply]
  by_cases hmem : path ∈ w.loaded
  · rw [if_pos hmem]
    exact World.Frame.refl w
  · rw [if_neg hmem]
    cases w.host.resolve w.asked path with
    | error f => exact World.Frame.asked w path
    | ok code =>
      have hload : Obeys R (interp.runText code path >>= fun _ => pure true) :=
        (hrun code).bind fun _ w => World.Frame.refl w
      exact hload.after (World.Frame.trans (World.Frame.asked w path)
        (World.Frame.loaded { w with asked := path :: w.asked } path hmem))

theorem covers_frameLaw : (frameLaw R).Covers where
  anyTree := trivial
  allows _ := trivial
  numbering _ w := World.Frame.sources w
  halting _ w := World.Frame.refl w
  naming hf w := hf w.sourceName w
  taking w := World.Frame.output w _ _

end Run

end Spinel
