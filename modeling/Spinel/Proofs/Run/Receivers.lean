import Spinel.Proofs.Run.Reachable

/-!
# Receivers of built-in methods

A built-in method that is found for a value can make of it what it needs: arrays for the methods of
`Array`, also behind the instances of its subclasses, and so on for all core classes
(`Builtin.needReceiver_of_answers`). In the states that programs reach, the refusals of receivers
that the built-in methods have in store are never given.
-/

namespace Spinel

open Run

variable {w : World} {h : Heap} {v : Value}

/-- Values have the shapes of the core classes that they inherit from. -/
def Heap.Sound (h : Heap) : Prop :=
  ∀ (v : Value) (k : ClassRef), k ∈ Core.valueClasses → k ∈ h.ancestors (h.classOf v) →
    Core.HasShape k (h.representation v)

/-- What the methods of a core class ask of their receiver. -/
def Builtin.needReceiver (b : Builtin) (v : Value) : Run Unit := do
  match b with
  | .kernel _ | .object _ | .nil _ => pure ()
  | .module _ | .klass _ => let _ ← needClass v
  | .numeric _ => let _ ← needs .float (fun _ v => v.toFloat?) v
  | .integer _ => let _ ← needInt v
  | .float _ => let _ ← needFloat v
  | .string _ => let _ ← needText v
  | .symbol _ => let _ ← needSymbol v
  | .array _ => let _ ← needList v
  | .hash _ => let _ ← needTable v
  | .range _ => let _ ← needRange v
  | .proc _ => let _ ← needProc v

/-- Numbers, symbols and classes do not stand behind objects. -/
theorem Heap.Regular.eq_of_representation (hr : h.Regular) {u : Value}
    (hu : h.representation v = u) (hnone : ∀ d, ¬Creation.Backs d (some u)) : v = u := by
  cases v with
  | object r =>
    by_cases hlives : r.index < h.objects.size
    · have hbacks := (hr.objects r hlives).backs
      change (h.object r).base.getD (.object r) = u at hu
      cases hb : (h.object r).base with
      | none =>
        rw [hb] at hu
        exact hu
      | some u' =>
        rw [hb] at hu hbacks
        obtain rfl : u' = u := hu
        exact absurd hbacks (hnone _)
    · have hdefault : h.object r = default := Store.get_of_size_le (Nat.le_of_not_lt hlives)
      change (h.object r).base.getD (.object r) = u at hu
      rw [hdefault] at hu
      exact hu
  | nil | bool | int | float | symbol | str | array | hash | range | klass | proc => exact hu

theorem Run.needs_of_some {α : Type} {wanted : Shape} {f : Heap → Value → Option α} {a : α}
    (hf : f w.heap v = some a) : needs wanted f v w = .ok a w := by
  have hread : reading (f · v) w = .ok (some a) w := congrArg (EStateM.Result.ok · w) hf
  exact bind_of_ok hread _

/-- A built-in method that is found for a value can make of it what it needs. -/
theorem Builtin.needReceiver_of_answers (hr : w.heap.Regular) {b : Builtin}
    (hb : w.heap.Answers v (.builtin b)) : b.needReceiver v w = .ok () w := by
  have hshape : b.owner ∈ Core.valueClasses → Core.HasShape b.owner (w.heap.representation v) :=
    fun hk => hr.hasShape hk (hb.2 b rfl)
  generalize hu : w.heap.representation v = u at hshape
  cases b with
  | kernel m | object m | nil m => rfl
  | module m =>
    cases hshape (of_decide_eq_true rfl) with
    | module c =>
      obtain rfl := hr.eq_of_representation hu (fun _ hbacks => by cases hbacks)
      rfl
  | klass m =>
    cases hshape (of_decide_eq_true rfl) with
    | klass c =>
      obtain rfl := hr.eq_of_representation hu (fun _ hbacks => by cases hbacks)
      rfl
  | numeric m =>
    cases hshape (of_decide_eq_true rfl) with
    | wholeNumber x | number x =>
      obtain rfl := hr.eq_of_representation hu (fun _ hbacks => by cases hbacks)
      rfl
  | integer m =>
    cases hshape (of_decide_eq_true rfl) with
    | integer x =>
      obtain rfl := hr.eq_of_representation hu (fun _ hbacks => by cases hbacks)
      rfl
  | float m =>
    cases hshape (of_decide_eq_true rfl) with
    | float x =>
      obtain rfl := hr.eq_of_representation hu (fun _ hbacks => by cases hbacks)
      rfl
  | symbol m =>
    cases hshape (of_decide_eq_true rfl) with
    | symbol name =>
      obtain rfl := hr.eq_of_representation hu (fun _ hbacks => by cases hbacks)
      rfl
  | string m =>
    cases hshape (of_decide_eq_true rfl) with
    | string r =>
      have htext : w.heap.textRef? v = some r := by rw [Heap.textRef?, hu]
      exact bind_of_ok (needs_of_some (congrArg (Option.map w.heap.text) htext)) _
  | array m =>
    cases hshape (of_decide_eq_true rfl) with
    | array r =>
      have hlist : w.heap.listRef? v = some r := by rw [Heap.listRef?, hu]
      exact bind_of_ok (needs_of_some hlist) _
  | hash m =>
    cases hshape (of_decide_eq_true rfl) with
    | hash r =>
      have htable : w.heap.tableRef? v = some r := by rw [Heap.tableRef?, hu]
      exact bind_of_ok (needs_of_some htable) _
  | range m =>
    cases hshape (of_decide_eq_true rfl) with
    | range low high =>
      have hrange : w.heap.range? v = some (low, high) := by rw [Heap.range?, hu]
      exact bind_of_ok (needs_of_some hrange) _
  | proc m =>
    cases hshape (of_decide_eq_true rfl) with
    | proc c =>
      have hproc : w.heap.proc? v = some c := by rw [Heap.proc?, hu]
      exact bind_of_ok (needs_of_some hproc) _

/-- The receiver of a built-in method that is about to be called is as the method needs it. -/
def Task.ReceiverFits (w : World) : Task → Prop
  | .invoke (.builtin b) receiver _ _ => b.needReceiver receiver w = .ok () w
  | _ => True

theorem Task.Ready.receiverFits {task : Task} (hr : w.heap.Regular) (ht : task.Ready w.heap) :
    task.ReceiverFits w := by
  cases task with
  | eval scope node => trivial
  | invoke c receiver args block =>
    cases c with
    | builtin b => exact b.needReceiver_of_answers hr ht.1
    | method | block | native => trivial

namespace Session

/-- Receivers of built-in methods are sound in all that any sequence of programs reaches: a value
whose class inherits from a core class is, or has behind it, a built-in value of that class; a
built-in method that a value responds with gets from the value what it needs; and in the run of a
further program this is so at every task, so that a check of it never raises an alarm. -/
theorem builtin_receivers_sound (sourceName : String) (host : Host) (ps : List Program) :
    let w := afterAll (start sourceName host) ps
    (∀ (v : Value) (k : ClassRef), k ∈ Core.valueClasses → k ∈ w.heap.ancestors (w.heap.classOf v) →
      Core.HasShape k (w.heap.representation v)) ∧
    (∀ (v : Value) (name : String) (b : Builtin), w.heap.methodOf v name = some (.builtin b) →
      b.needReceiver v w = .ok () w) ∧
    ∀ (alarm : Run Value) (p : Program),
      p.run (watched (fun w task => w.heap.Sound ∧ task.ReceiverFits w) alarm depth) w =
        p.run evaluator w := by
  intro w
  have hr : w.heap.Regular := regular_afterAll Core.regular ps
  refine ⟨fun v k hk hmem => hr.hasShape hk hmem, fun v name b hm => ?_, fun alarm p => ?_⟩
  · exact b.needReceiver_of_answers hr (hr.answers_of_methodOf hm)
  · exact watched_run hr
      (fun w task hr ht => ⟨fun _ _ hk hmem => hr.hasShape hk hmem, ht.receiverFits hr⟩) alarm p

/-- An instance of a subclass of `Array`. -/
example :
    let w := afterAll (start) [.text "class A < Array\nend\nA.new" "main"]
    Core.array ∈ w.heap.ancestors (w.heap.classOf (.object ⟨1⟩)) := by
  decide +kernel

end Session

end Spinel
