import Spinel.Proofs.Frame.Session

/-!
# Guards are taken off again

While the text of a collection is made, or two of them are compared, a guard notes it, so that
collections inside themselves are noticed. Whatever programs do inside, a failure at any depth
included, the guards afterwards are those from before.
-/

namespace Spinel

open Run

/-- The same texts are being made and the same collections compared. -/
def World.SameGuards (w w' : World) : Prop :=
  w'.inspecting = w.inspecting ∧ w'.comparing = w.comparing

instance : World.Frame World.SameGuards where
  refl _ := ⟨rfl, rfl⟩
  trans h h' := ⟨h'.1.trans h.1, h'.2.trans h.2⟩
  heap _ _ := ⟨rfl, rfl⟩
  output _ _ _ := ⟨rfl, rfl⟩
  drawn _ _ := ⟨rfl, rfl⟩
  asked _ _ := ⟨rfl, rfl⟩
  natives _ := ⟨rfl, rfl⟩
  sources _ := ⟨rfl, rfl⟩
  loaded _ _ _ := ⟨rfl, rfl⟩
  inspecting h := ⟨congrArg List.tail h.1, h.2⟩
  comparing h := ⟨h.1, congrArg List.tail h.2⟩

theorem World.eq_of_no_guards {w : World} (hinspecting : w.inspecting = [])
    (hcomparing : w.comparing = []) : { w with inspecting := [], comparing := [] } = w := by
  rw [← hinspecting, ← hcomparing]

/-- In any state, and however deep it goes, what the evaluator does for a program, a source, a
`require`, a message or the text of a value leaves the guards as they were, whether it gives a value
or fails. So in a session, whose first state has none, there are none after any actions, also after
ones that failed, and texts and comparisons after them come out as they do without guards. -/
theorem guards_balanced :
    (∀ (n : Nat) (w : World),
      (∀ task, w.SameGuards ((interpreter n task).after w)) ∧
      (∀ scope last nodes, w.SameGuards (((interpreter n).body scope last nodes).after w)) ∧
      (∀ s label, w.SameGuards (((interpreter n).runStream s label).after w)) ∧
      (∀ code label, w.SameGuards (((interpreter n).runText code label).after w)) ∧
      (∀ path, w.SameGuards (((interpreter n).require path).after w)) ∧
      (∀ receiver name args block,
        w.SameGuards (((interpreter n).send receiver name args block).after w)) ∧
      (∀ v, w.SameGuards (((interpreter n).text v).after w)) ∧
      ∀ v, w.SameGuards (((interpreter n).inspect v).after w)) ∧
    ∀ (sourceName : String) (host : Host) (as : List Session.Action),
      let w := Session.afterActions (Session.start sourceName host) as
      w.inspecting = [] ∧ w.comparing = [] ∧
        (∀ v, Session.inspect v w =
          Session.inspect v { w with inspecting := [], comparing := [] }) ∧
        ∀ v v', Session.evaluator.equals v v' w =
          Session.evaluator.equals v v' { w with inspecting := [], comparing := [] } := by
  constructor
  · intro n w
    have hi : ∀ task, Obeys World.SameGuards (interpreter n task) := obeys_interpreter n
    refine ⟨fun task => (hi task).frame_after w, fun scope last nodes => ?_, fun s label => ?_,
      fun code label => ?_, fun path => ?_, fun receiver name args block => ?_, fun v => ?_,
      fun v => ?_⟩
    · exact (Interp.obeys_body hi scope last nodes).frame_after w
    · exact (Interp.obeys_runStream hi s label).frame_after w
    · exact (Interp.obeys_runText hi code label).frame_after w
    · exact (Interp.obeys_require hi path).frame_after w
    · exact (Interp.obeys_send hi receiver name args block).frame_after w
    · exact (Interp.obeys_text hi v).frame_after w
    · exact (Interp.obeys_inspect hi v).frame_after w
  · intro sourceName host as w
    obtain ⟨hinspecting, hcomparing⟩ : (Session.start sourceName host).SameGuards w :=
      Session.frame_afterActions _ as
    rw [World.eq_of_no_guards hinspecting hcomparing]
    exact ⟨hinspecting, hcomparing, fun _ => rfl, fun _ _ => rfl⟩

end Spinel
