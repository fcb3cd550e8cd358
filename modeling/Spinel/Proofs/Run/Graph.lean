import Spinel.Proofs.Run.Reachable

/-!
# The graph of classes, objects and scopes

Programs add classes, objects and scopes to the heap and define things in them. They take nothing
away, and all that is there keeps its place in the graph (`Heap.Enlarges`). A link is made once,
together with what it belongs to, and leads to something that was there before. So all that is
looked for along links is found, or found missing, after finitely many of them (`Heap.Followed`).
-/

namespace Spinel

open Run

variable {w : World}

/-- Whatever depth is left to the evaluator, and whether or not the task succeeds, it leaves a
larger heap on which all links lead to something older. -/
def Task.Grows (w : World) (task : Task) : Prop :=
  ∀ n, w.heap.Enlarges ((interpreter n task).after w).heap ∧
    ((interpreter n task).after w).heap.Founded

theorem Task.Ready.grows {task : Task} (hr : w.heap.Regular) (ht : task.Ready w.heap) :
    task.Grows w := by
  intro n
  obtain ⟨e, hr'⟩ := ht.keeps n hr
  exact ⟨e.enlarges, hr'.founded⟩

namespace Session

/-- The graph of classes, objects and scopes only grows, and stays well-founded. After any sequence
of programs all links lead to something older, so that lookups follow them to their ends and chains
of superclasses have no duplicates. A further program leaves a larger heap, whether or not it
succeeds, and so does every task that is begun in its run: a check of all this at each task never
raises an alarm. -/
theorem graph_grows_and_stays_founded (sourceName : String) (host : Host)
    (ps : List Program) :
    let w := afterAll (start sourceName host) ps
    w.heap.Founded ∧ w.heap.Followed ∧ ∀ p : Program,
      w.heap.Enlarges ((p.run evaluator).after w).heap ∧
      ∀ alarm : Run Value,
        p.run (watched (fun w task => w.heap.Founded ∧ w.heap.Followed ∧ task.Grows w) alarm
          depth) w = p.run evaluator w := by
  intro w
  have hr : w.heap.Regular := regular_afterAll Core.regular ps
  refine ⟨hr.founded, hr.founded.followed, fun p => ⟨?_, fun alarm => ?_⟩⟩
  · exact (keeps_run False.elim hr).1.enlarges
  · exact watched_run hr
      (fun w task hr ht => ⟨hr.founded, hr.founded.followed, ht.grows hr⟩) alarm p

/-- A class in a module, with a superclass outside. -/
example :
    let h := (afterAll (start) [.text "class A\nend\nmodule M\nclass B < A\nend\nend" "main"]).heap
    let n := Core.heap.classes.size
    h.classes.size = n + 3 ∧ h.fullName ⟨n + 2⟩ = "M::B" ∧
      h.ancestors ⟨n + 2⟩ = [⟨n + 2⟩, ⟨n⟩, Core.object] := by
  decide +kernel

end Session

end Spinel
