import Spinel.Proofs.Law.Session

/-!
# Laws about sources

Nothing but `require` looks at the resolver or at what was loaded. So a computation does the same
with a resolver that is seen in another way, and what holds of the resolver and of what was loaded
goes on to hold, until a source is loaded. A `Shelf` says how the resolver is seen and what holds,
and to go along with it is a law (`Shelf.law`).
-/

namespace Spinel

open Run

variable {α β : Type}

namespace Run

/-- A result in another state. -/
def relocate (f : World → World) : EStateM.Result Halt World α → EStateM.Result Halt World α
  | .ok a w => .ok a (f w)
  | .error e w => .error e (f w)

theorem after_eq_of_relocate {x y : Run α} {f : World → World} {w w' : World}
    (h : y w' = relocate f (x w)) : y.after w' = f (x.after w) := by
  unfold after
  rw [h]
  cases x w <;> rfl

theorem after_mapFailure (x : Run α) (change : Failure → Failure) (w : World) :
    (x.mapFailure change).after w = x.after w := by
  unfold after mapFailure
  cases x w with
  | ok a w' => rfl
  | error e w' => cases e <;> rfl

/-- A guard that is not set is set for as long as the part inside runs. -/
theorem guardInspecting_apply (id : Identity) (again : α) (x : Run α) (w : World) :
    guardInspecting id again x w =
      if id ∈ w.inspecting then .ok again w
      else relocate (fun w => { w with inspecting := w.inspecting.tail })
        (x { w with inspecting := id :: w.inspecting }) := by
  unfold guardInspecting
  by_cases hid : id ∈ w.inspecting
  · rw [if_pos (List.contains_iff_mem.2 hid), if_pos hid]
  · rw [if_neg (mt List.contains_iff_mem.1 hid), if_neg hid]
    cases x { w with inspecting := id :: w.inspecting } <;> rfl

theorem guardComparing_apply (pair : Identity × Identity) (x : Run Bool) (w : World) :
    guardComparing pair x w =
      if pair ∈ w.comparing then .ok true w
      else relocate (fun w => { w with comparing := w.comparing.tail })
        (x { w with comparing := pair :: w.comparing }) := by
  unfold guardComparing
  by_cases hid : pair ∈ w.comparing
  · rw [if_pos (List.contains_iff_mem.2 hid), if_pos hid]
  · rw [if_neg (mt List.contains_iff_mem.1 hid), if_neg hid]
    cases x { w with comparing := pair :: w.comparing } <;> rfl

end Run

/-! ## Shelves -/

/-- A way to see the resolver, which may depend on what was loaded; a condition on it, on what was
loaded and on what it was asked for, that stays true when a path is noted; and a condition on
failures that fresh ones meet, and those of the resolver. -/
structure Shelf where
  /-- Fresh failures because of the shape of a tree meet the condition as well. -/
  AnyTree : Prop
  see : (loaded : List String) → Resolver → Resolver
  Tidy : (loaded asked : List String) → Resolver → Prop
  tidy_load : ∀ {path loaded asked resolve}, path ∉ loaded → Tidy loaded asked resolve →
    Tidy (path :: loaded) asked resolve
  tidy_ask : ∀ {path loaded asked resolve}, Tidy loaded asked resolve →
    Tidy loaded (path :: asked) resolve
  Fine : (asked : List String) → Failure → Prop
  fine_fault : ∀ asked fault, (fault.isIllFormed = true → AnyTree) → Fine asked { fault }
  fine_load : ∀ {path loaded asked resolve f}, Tidy loaded asked resolve →
    resolve asked path = .error f → Fine (path :: asked) f

namespace Shelf

variable (S : Shelf)

/-- The state with the resolver as the shelf has it. -/
def through (w : World) : World :=
  { w with host := { w.host with resolve := S.see w.loaded w.host.resolve } }

/-- The condition in a state. -/
def IsTidy (w : World) : Prop := S.Tidy w.loaded w.asked w.host.resolve

/-- The condition in the state that a result comes with, and the one on failures. -/
def IsGood : EStateM.Result Halt World α → Prop
  | .ok _ w => S.IsTidy w
  | .error (.failed f) w => S.IsTidy w ∧ S.Fine w.asked f
  | .error .outOfFuel w => S.IsTidy w

/-- The second computation does with the resolver seen through what the first does, and its result
is good. -/
def Follows (x y : Run α) : Prop :=
  ∀ w, S.IsTidy w → y (S.through w) = relocate S.through (x w) ∧ S.IsGood (x w)

variable {S}

theorem isGood_iff {x : Run α} {w : World} :
    S.IsGood (x w) ↔
      S.IsTidy (x.after w) ∧ ∀ f w', x w = .error (.failed f) w' → S.Fine w'.asked f := by
  unfold Run.after
  cases x w with
  | ok a w' => exact ⟨fun h => ⟨h, fun _ _ hf => by cases hf⟩, And.left⟩
  | error e w' =>
    cases e with
    | failed f => exact ⟨fun h => ⟨h.1, fun _ _ hf => by cases hf; exact h.2⟩,
        fun h => ⟨h.1, h.2 f w' rfl⟩⟩
    | outOfFuel => exact ⟨fun h => ⟨h, fun _ _ hf => by cases hf⟩, And.left⟩

theorem IsGood.relocate {r : EStateM.Result Halt World α} (h : S.IsGood r) {f : World → World}
    (hf : ∀ w, S.IsTidy w → S.IsTidy (f w)) (hasked : ∀ w, (f w).asked = w.asked) :
    S.IsGood (relocate f r) := by
  cases r with
  | ok a w => exact hf w h
  | error e w =>
    cases e with
    | failed failure => exact ⟨hf w h.1, (hasked w).symm ▸ h.2⟩
    | outOfFuel => exact hf w h

theorem IsGood.bind_pure {x : Run α} {w : World} (h : S.IsGood (x w)) (b : β) :
    S.IsGood ((x >>= fun _ => pure b) w) := by
  rw [bind_apply]
  cases hx : x w with
  | ok a w' =>
    rw [hx] at h
    exact h
  | error e w' =>
    rw [hx] at h
    cases e with
    | failed f => exact h
    | outOfFuel => exact h

theorem Follows.bind {x y : Run α} {f g : α → Run β} (hx : S.Follows x y)
    (hf : ∀ a, S.Follows (f a) (g a)) : S.Follows (x >>= f) (y >>= g) := by
  intro w hw
  obtain ⟨hy, hgood⟩ := hx w hw
  rw [bind_apply, bind_apply, hy]
  cases hxw : x w with
  | ok a w' =>
    rw [hxw] at hgood
    exact hf a w' hgood
  | error e w' =>
    rw [hxw] at hgood
    cases e with
    | failed failure => exact ⟨rfl, hgood⟩
    | outOfFuel => exact ⟨rfl, hgood⟩

theorem Follows.mapFailure {x y : Run α} (hx : S.Follows x y) {change : Failure → Failure}
    (hchange : ∀ asked f, S.Fine asked f → S.Fine asked (change f)) :
    S.Follows (x.mapFailure change) (y.mapFailure change) := by
  intro w hw
  obtain ⟨hy, hgood⟩ := hx w hw
  unfold Run.mapFailure
  rw [hy]
  cases hxw : x w with
  | ok a w' =>
    rw [hxw] at hgood
    exact ⟨rfl, hgood⟩
  | error e w' =>
    rw [hxw] at hgood
    cases e with
    | failed f => exact ⟨rfl, hgood.1, hchange _ f hgood.2⟩
    | outOfFuel => exact ⟨rfl, hgood⟩

/-- What is done inside a guard that is set before and cleared after. -/
theorem Follows.enclosed {x y : Run α} (hx : S.Follows x y) (set clear : World → World) {w : World}
    (hset : set (S.through w) = S.through (set w)) (hw : S.IsTidy (set w))
    (hclear : ∀ w, clear (S.through w) = S.through (clear w))
    (hkeep : ∀ w, S.IsTidy w → S.IsTidy (clear w)) (hasked : ∀ w, (clear w).asked = w.asked) :
    relocate clear (y (set (S.through w))) = relocate S.through (relocate clear (x (set w))) ∧
      S.IsGood (relocate clear (x (set w))) := by
  obtain ⟨hy, hgood⟩ := hx (set w) hw
  refine ⟨?_, hgood.relocate hkeep hasked⟩
  rw [hset, hy]
  cases x (set w) with
  | ok a w' => exact congrArg (EStateM.Result.ok a) (hclear w')
  | error e w' => exact congrArg (EStateM.Result.error e) (hclear w')

theorem Follows.guardInspecting {x y : Run α} (hx : S.Follows x y) (id : Identity) (again : α) :
    S.Follows (guardInspecting id again x) (guardInspecting id again y) := by
  intro w hw
  have hinside := hx.enclosed (fun w => { w with inspecting := id :: w.inspecting })
    (fun w => { w with inspecting := w.inspecting.tail }) (w := w) rfl hw (fun _ => rfl)
    (fun _ h => h) fun _ => rfl
  rw [guardInspecting_apply, guardInspecting_apply]
  by_cases hid : id ∈ w.inspecting
  · rw [if_pos hid]
    exact ⟨if_pos hid, hw⟩
  · rw [if_neg hid]
    exact ⟨(if_neg hid).trans hinside.1, hinside.2⟩

theorem Follows.guardComparing {x y : Run Bool} (hx : S.Follows x y)
    (pair : Identity × Identity) : S.Follows (guardComparing pair x) (guardComparing pair y) := by
  intro w hw
  have hinside := hx.enclosed (fun w => { w with comparing := pair :: w.comparing })
    (fun w => { w with comparing := w.comparing.tail }) (w := w) rfl hw (fun _ => rfl)
    (fun _ h => h) fun _ => rfl
  rw [guardComparing_apply, guardComparing_apply]
  by_cases hid : pair ∈ w.comparing
  · rw [if_pos hid]
    exact ⟨if_pos hid, hw⟩
  · rw [if_neg hid]
    exact ⟨(if_neg hid).trans hinside.1, hinside.2⟩

theorem follows_write (text : String) : S.Follows (write text) (write text) := by
  intro w hw
  have hwriter : (S.through w).host.write (S.through w).given = w.host.write w.given := rfl
  unfold write
  rw [hwriter]
  cases w.host.write w.given text with
  | none => exact ⟨rfl, hw⟩
  | some refusal => exact ⟨rfl, hw, S.fine_fault _ _ fun h => Bool.noConfusion h⟩

variable (S)

/-- To follow is a law. -/
def law : Law where
  Holds x y := S.Follows x y
  AnyTree := S.AnyTree
  Allows change := ∀ asked f, S.Fine asked f → S.Fine asked (change f)
  result _ _ hw := ⟨rfl, hw⟩
  sequence := Follows.bind
  failure fault hfault _ hw := ⟨rfl, hw, S.fine_fault _ fault hfault⟩
  exhaustion _ hw := ⟨rfl, hw⟩
  change hchange hx := hx.mapFailure hchange
  inspecting id again hx := hx.guardInspecting id again
  comparing pair hx := hx.guardComparing pair
  question _ _ hw := ⟨rfl, hw⟩
  heap _ _ hw := ⟨rfl, hw⟩
  cell _ _ hw := ⟨rfl, hw⟩
  native _ _ hw := ⟨rfl, hw⟩
  output := follows_write
  random _ hw := ⟨rfl, hw⟩

variable {S}

/-- Sources are covered if nothing is asked of failures. -/
theorem covers_law (hany : S.AnyTree) (hfine : ∀ asked f, S.Fine asked f) : S.law.Covers where
  anyTree := hany
  allows _ _ f _ := hfine _ _
  numbering _ _ hw := ⟨rfl, hw⟩
  halting e _ hw := by
    cases e with
    | failed f => exact ⟨rfl, hw, hfine _ f⟩
    | outOfFuel => exact ⟨rfl, hw⟩
  naming hf w hw := hf w.sourceName w hw
  taking _ hw := ⟨rfl, hw⟩

/-! ## Shelves that show the resolver as it is -/

variable (S) in
/-- The resolver is seen as it is. -/
def IsPlain : Prop := ∀ w, S.through w = w

theorem relocate_through (hS : S.IsPlain) (r : EStateM.Result Halt World α) :
    relocate S.through r = r := by
  cases r with
  | ok a w => exact congrArg (EStateM.Result.ok a) (hS w)
  | error e w => exact congrArg (EStateM.Result.error e) (hS w)

theorem Follows.eq (hS : S.IsPlain) {x y : Run α} (h : S.Follows x y) {w : World}
    (hw : S.IsTidy w) : y w = x w := by
  have hy := (h w hw).1
  rwa [hS w, relocate_through hS] at hy

/-- With the resolver as it is, a computation follows itself if its results are good. -/
theorem follows_self (hS : S.IsPlain) {x : Run α} (h : ∀ w, S.IsTidy w → S.IsGood (x w)) :
    S.Follows x x := by
  intro w hw
  rw [hS w, relocate_through hS]
  exact ⟨rfl, h w hw⟩

theorem coversLoading_law (hS : S.IsPlain) : S.law.CoversLoading := by
  intro I J path hrun w hw
  rw [hS w, relocate_through hS, Interp.require_apply, Interp.require_apply]
  by_cases hmem : path ∈ w.loaded
  · rw [if_pos hmem, if_pos hmem]
    exact ⟨rfl, hw⟩
  · rw [if_neg hmem, if_neg hmem]
    cases hcode : w.host.resolve w.asked path with
    | error f => exact ⟨rfl, S.tidy_ask hw, S.fine_load hw hcode⟩
    | ok code =>
      have hload := Follows.bind (hrun code) fun _ => S.law.result true
      have hboth := hload { w with asked := path :: w.asked, loaded := path :: w.loaded }
        (S.tidy_load hmem (S.tidy_ask hw))
      rwa [hS, relocate_through hS] at hboth

end Shelf

end Spinel
