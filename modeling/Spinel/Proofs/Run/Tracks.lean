import Spinel.Proofs.Computation
import Spinel.Proofs.Heap.Entries
import Spinel.Proofs.Heap.Lookup

/-!
# Computations on regular heaps

`Run.Asks w x Q` says that on a regular heap the computation `x` leaves the world `w` alone,
`Run.Tracks w x y Q` that it keeps the heap regular, and both that the result, if there is one, is
as `Q` says. The second is about two computations, of which `y` has to do the same as `x`:
the two differ in the evaluator that they call. Sequences are taken apart by `Asks.bind` and
`Tracks.bind`, which hand the world that the first part leaves to the second.
-/

namespace Spinel

variable [Secrecy] {α β : Type} {w : World}

namespace Run

/-- On a regular heap the computation leaves the world alone and gives what `Q` says. -/
def Asks (w : World) (x : Run α) (Q : Heap → α → Prop) : Prop :=
  w.heap.Regular →
    match x w with
    | .ok a w' => w' = w ∧ Q w.heap a
    | .error _ w' => w' = w

/-- On a regular heap the computation `x` keeps the heap regular and gives what `Q` says, and `y`
does the same. -/
def Tracks (w : World) (x y : Run α) (Q : Heap → α → Prop) : Prop :=
  w.heap.Regular → y w = x w ∧
    match x w with
    | .ok a w' => w.heap.Keeps w'.heap ∧ Q w'.heap a
    | .error _ w' => w.heap.Keeps w'.heap

/-- The result lives. -/
abbrev Safe [Refers α] (w : World) (x y : Run α) : Prop := Tracks w x y Lives

section Rules

variable {x y : Run α} {f g : α → Run β} {Q : Heap → α → Prop} {R : Heap → β → Prop}

theorem Asks.cases (hx : Asks w x Q) (hr : w.heap.Regular) :
    (∃ a, x w = .ok a w ∧ Q w.heap a) ∨ ∃ e, x w = .error e w := by
  have hx' := hx hr
  cases hxw : x w with
  | ok a w' =>
    rw [hxw] at hx'
    obtain ⟨rfl, ha⟩ := hx'
    exact .inl ⟨a, rfl, ha⟩
  | error e w' =>
    rw [hxw] at hx'
    exact .inr ⟨e, congrArg _ hx'⟩

theorem Tracks.cases (hx : Tracks w x y Q) (hr : w.heap.Regular) :
    (∃ a w', x w = .ok a w' ∧ y w = .ok a w' ∧ w.heap.Keeps w'.heap ∧ Q w'.heap a) ∨
      ∃ e w', x w = .error e w' ∧ y w = .error e w' ∧ w.heap.Keeps w'.heap := by
  obtain ⟨hsame, hx'⟩ := hx hr
  rw [hsame]
  cases hxw : x w with
  | ok a w' =>
    rw [hxw] at hx'
    exact .inl ⟨a, w', rfl, rfl, hx'⟩
  | error e w' =>
    rw [hxw] at hx'
    exact .inr ⟨e, w', rfl, rfl, hx'⟩

theorem tracks_of_ok {a : α} {w' : World} (hx : x w = .ok a w') (hy : y w = .ok a w')
    (hs : w.heap.Keeps w'.heap) (ha : Q w'.heap a) : Tracks w x y Q := by
  intro _
  rw [hx, hy]
  exact ⟨rfl, hs, ha⟩

theorem tracks_of_error {e : Halt} {w' : World} (hx : x w = .error e w') (hy : y w = .error e w')
    (hs : w.heap.Keeps w'.heap) : Tracks w x y Q := by
  intro _
  rw [hx, hy]
  exact ⟨rfl, hs⟩

theorem Asks.tracks (hx : Asks w x Q) : Tracks w x x Q := by
  refine fun hr => ?_
  rcases hx.cases hr with ⟨a, hxw, ha⟩ | ⟨e, hxw⟩
  · exact tracks_of_ok hxw hxw (.refl _) ha hr
  · exact tracks_of_error hxw hxw (.refl _) hr

theorem Asks.bind (hx : Asks w x Q) (hf : ∀ a, Q w.heap a → Tracks w (f a) (g a) R) :
    Tracks w (x >>= f) (x >>= g) R := by
  intro hr
  rcases hx.cases hr with ⟨a, hxw, ha⟩ | ⟨e, hxw⟩
  · rw [bind_of_ok hxw, bind_of_ok hxw]
    exact hf a ha hr
  · exact tracks_of_error (bind_of_error hxw f) (bind_of_error hxw g) (.refl _) hr

theorem Asks.andThen (hx : Asks w x Q) (hf : ∀ a, Q w.heap a → Asks w (f a) R) :
    Asks w (x >>= f) R := by
  intro hr
  rcases hx.cases hr with ⟨a, hxw, ha⟩ | ⟨e, hxw⟩
  · rw [bind_of_ok hxw]
    exact hf a ha hr
  · rw [bind_of_error hxw]

/-- The rest of a computation starts in a later world. -/
theorem Tracks.bind (hx : Tracks w x y Q)
    (hf : ∀ a w', w.heap.Extends w'.heap → Q w'.heap a → Tracks w' (f a) (g a) R) :
    Tracks w (x >>= f) (y >>= g) R := by
  intro hr
  rcases hx.cases hr with ⟨a, w', hxw, hyw, hs, ha⟩ | ⟨e, w', hxw, hyw, hs⟩
  · obtain ⟨e, hr'⟩ := hs hr
    rcases (hf a w' e ha).cases hr' with
      ⟨b, w'', hfw, hgw, hs', hb⟩ | ⟨e', w'', hfw, hgw, hs'⟩
    · exact tracks_of_ok ((bind_of_ok hxw f).trans hfw) ((bind_of_ok hyw g).trans hgw)
        (hs.trans hs') hb hr
    · exact tracks_of_error ((bind_of_ok hxw f).trans hfw) ((bind_of_ok hyw g).trans hgw)
        (hs.trans hs') hr
  · exact tracks_of_error (bind_of_error hxw f) (bind_of_error hyw g) hs hr

/-- The heap may be taken to be regular. -/
theorem tracks_of_regular (hx : w.heap.Regular → Tracks w x y Q) : Tracks w x y Q :=
  fun hr => hx hr hr

theorem Tracks.mono {Q' : Heap → α → Prop} (hx : Tracks w x y Q) (hQ : ∀ h a, Q h a → Q' h a) :
    Tracks w x y Q' := by
  intro hr
  rcases hx.cases hr with ⟨a, w', hxw, hyw, hs, ha⟩ | ⟨e, w', hxw, hyw, hs⟩
  · exact tracks_of_ok hxw hyw hs (hQ _ _ ha) hr
  · exact tracks_of_error hxw hyw hs hr

theorem asks_pure {a : α} (ha : Q w.heap a) : Asks w (pure a) Q := fun _ => ⟨rfl, ha⟩

theorem tracks_pure {a : α} (ha : Q w.heap a) : Tracks w (pure a) (pure a) Q :=
  (asks_pure ha).tracks

theorem asks_throw (e : Halt) : Asks w (throw e : Run α) Q := fun _ => rfl

theorem asks_fail (fault : Fault) : Asks w (fail fault : Run α) Q := asks_throw _

theorem tracks_fail (fault : Fault) : Tracks w (fail fault : Run α) (fail fault) Q :=
  (asks_fail fault).tracks

theorem tracks_refusal {c : Prop} [Decidable c] {fault : Fault} {f g : Unit → Run β}
    (hf : ¬c → Tracks w (f ()) (g ()) R) :
    Tracks w (if c then fail fault >>= f else f ()) (if c then fail fault >>= g else g ()) R := by
  split
  · exact (asks_fail (Q := fun _ _ => False) fault).bind fun _ hfalse => hfalse.elim
  · next hc => exact hf hc

theorem tracks_outOfFuel : Tracks w (outOfFuel : Run α) outOfFuel Q := (asks_throw _).tracks

theorem asks_reading {f : Heap → α} (hf : w.heap.Regular → Q w.heap (f w.heap)) :
    Asks w (reading f) Q := fun hr => ⟨rfl, hf hr⟩

theorem asks_anything (f : Heap → α) : Asks w (reading f) fun _ _ => True :=
  asks_reading fun _ => trivial

theorem asks_readingSome {f : Heap → Option α} (hf : ∀ a, f w.heap = some a → Q w.heap a) :
    Asks w (readingSome f) Q := by
  refine (asks_reading (Q := fun h o => f h = o) fun _ => rfl).andThen fun o ho => ?_
  cases o with
  | none => exact asks_throw _
  | some a => exact asks_pure (hf a ho)

theorem asks_get : Asks w (get : Run World) fun _ _ => True := fun _ => ⟨rfl, trivial⟩

theorem asks_ofOption [Refers α] {fault : Fault} {o : Option α} (ho : Lives w.heap o) :
    Asks w (ofOption fault o) Lives := by
  cases o with
  | none => exact asks_fail fault
  | some a => exact asks_pure (lives_some.1 ho)

theorem tracks_alloc {f : Heap → α × Heap} (hs : w.heap.Regular → w.heap.Keeps (f w.heap).2)
    (hq : w.heap.Regular → Q (f w.heap).2 (f w.heap).1) : Tracks w (alloc f) (alloc f) Q :=
  fun hr => ⟨rfl, hs hr, hq hr⟩

theorem tracks_modifyHeap {f : Heap → Heap} (hs : w.heap.Regular → w.heap.Keeps (f w.heap)) :
    Safe w (modifyHeap f) (modifyHeap f) :=
  fun hr => ⟨rfl, hs hr, trivial⟩

theorem Tracks.mapFailure (hx : Tracks w x y Q) (change : Failure → Failure) :
    Tracks w (x.mapFailure change) (y.mapFailure change) Q := by
  intro hr
  unfold Run.mapFailure
  rcases hx.cases hr with ⟨a, w', hxw, hyw, hs, ha⟩ | ⟨e, w', hxw, hyw, hs⟩
  · rw [hxw, hyw]
    exact ⟨rfl, hs, ha⟩
  · rw [hxw, hyw]
    cases e <;> exact ⟨rfl, hs⟩

theorem Tracks.tagged (hx : Tracks w x y Q) (span : Span) (action : Action) :
    Tracks w (x.tagged span action) (y.tagged span action) Q :=
  hx.mapFailure _

theorem safe_forEach [Refers α] [Refers β] {fs gs : List α → Run (List β)}
    (hf : ∀ (w' : World) (a : α), w.heap.Extends w'.heap → Lives w'.heap a → Safe w' (f a) (g a))
    (hfs : ∀ a as, fs (a :: as) = f a >>= fun b => fs as >>= fun bs => pure (b :: bs))
    (hgs : ∀ a as, gs (a :: as) = g a >>= fun b => gs as >>= fun bs => pure (b :: bs))
    (hfn : fs [] = pure []) (hgn : gs [] = pure []) {as : List α} (has : Lives w.heap as) :
    Safe w (fs as) (gs as) := by
  have hloop : ∀ (as : List α) (w' : World), w.heap.Extends w'.heap → Lives w'.heap as →
      Safe w' (fs as) (gs as) := by
    intro as
    induction as with
    | nil =>
      intro w' _ _
      rw [hfn, hgn]
      exact tracks_pure lives_nil
    | cons a rest ih =>
      intro w' e has
      obtain ⟨ha, hrest⟩ := lives_cons.1 has
      rw [hfs, hgs]
      refine (hf w' a e ha).bind fun b w'' e' hb => ?_
      exact (ih w'' (e.trans e') (hrest.later e')).bind fun bs _ e'' hbs =>
        tracks_pure (lives_cons.2 ⟨hb.later e'', hbs⟩)
  exact hloop as w (.refl _) has

theorem Tracks.guardInspecting {id : Identity} {again : α} (hagain : Q w.heap again)
    (hx : ∀ w' : World, w'.heap = w.heap → Tracks w' x y Q) :
    Tracks w (guardInspecting id again x) (guardInspecting id again y) Q := by
  intro hr
  unfold Run.guardInspecting
  split
  · exact ⟨rfl, .refl _, hagain⟩
  · rcases (hx { w with inspecting := id :: w.inspecting } rfl).cases hr with
      ⟨a, w', hxw, hyw, hs⟩ | ⟨e, w', hxw, hyw, hs⟩
    · rw [hxw, hyw]
      exact ⟨rfl, hs⟩
    · rw [hxw, hyw]
      exact ⟨rfl, hs⟩

theorem Tracks.guardComparing {pair : Identity × Identity} {x y : Run Bool}
    (hx : ∀ w' : World, w'.heap = w.heap → Safe w' x y) :
    Safe w (guardComparing pair x) (guardComparing pair y) := by
  intro hr
  unfold Run.guardComparing
  split
  · exact ⟨rfl, .refl _, trivial⟩
  · rcases (hx { w with comparing := pair :: w.comparing } rfl).cases hr with
      ⟨b, w', hxw, hyw, hs⟩ | ⟨e, w', hxw, hyw, hs⟩
    · rw [hxw, hyw]
      exact ⟨rfl, hs⟩
    · rw [hxw, hyw]
      exact ⟨rfl, hs⟩

end Rules

end Run

end Spinel
