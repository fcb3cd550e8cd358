import Spinel.Proofs.Run.Reachable

/-!
# Methods that every value has

`Object` has the methods that are meant for every value, and nothing takes them away. A class leads
up to `Object` unless it inherits from a module, where the chain of superclasses ends
(`Heap.Regular.getLast?_ancestors_iff`). So all values respond to these methods but for instances of
classes that inherit from a module.
-/

namespace Spinel

/-- The names of the methods that are meant for every value. -/
def Core.universalNames : List String :=
  KernelMethod.table.map (·.1) ++ ObjectMethod.table.map (·.1)

namespace Heap

variable {h : Heap} {c : ClassRef} {name : String}

/-- No class of the heap that a class inherits from is a module. -/
def NoModuleAbove (h : Heap) (c : ClassRef) : Prop :=
  ∀ k ∈ h.ancestors c, (h.klass k).isModule = false

/-! ## The root of the hierarchy -/

theorem Regular.grows_object (hr : h.Regular) :
    (Core.heap.klass Core.object).Grows (h.klass Core.object) :=
  hr.core.grows Core.object (of_decide_eq_true rfl : Core.object.index < Core.heap.classes.size)

theorem Regular.superclass_object (hr : h.Regular) : (h.klass Core.object).superclass = none :=
  hr.grows_object.superclass

theorem Regular.isModule_object (hr : h.Regular) : (h.klass Core.object).isModule = false :=
  hr.grows_object.isModule

/-- The methods for every value stay with `Object`. -/
theorem Regular.mem_methods_object (hr : h.Regular) (hname : name ∈ Core.universalNames) :
    name ∈ (h.klass Core.object).methods.keys := by
  have hcore : Core.universalNames ⊆ (Core.heap.klass Core.object).methods.keys := by
    decide +kernel
  exact hr.grows_object.methods (hcore hname)

/-- The chain of a class ends at `Object`, or else at a module. -/
theorem Regular.getLast?_ancestors_iff (hr : h.Regular) (hc : Lives h (.klass c : Value)) :
    (h.ancestors c).getLast? = some Core.object ↔ h.NoModuleAbove c := by
  obtain ⟨i⟩ := c
  induction i using Nat.strongRecOn with
  | ind i ih =>
    have hrooted := (hr.classes ⟨i⟩ hc.1).rooted hc.2
    cases hs : (h.klass ⟨i⟩).superclass with
    | none =>
      rw [NoModuleAbove, ancestors_of_none hs, List.getLast?_singleton, List.forall_mem_singleton,
        Option.some.injEq]
      by_cases hroot : (⟨i⟩ : ClassRef) = Core.object
      · rw [hroot]
        exact iff_of_true rfl hr.isModule_object
      · rw [hrooted hroot, hs]
        exact iff_of_false hroot (by decide)
    | some s =>
      have hroot : (⟨i⟩ : ClassRef) ≠ Core.object := by
        intro heq
        rw [heq, hr.superclass_object] at hs
        cases hs
      have hnot : (h.klass ⟨i⟩).isModule = false := by rw [hrooted hroot, hs]; rfl
      have hsuper := (hr.classes ⟨i⟩ hc.1).inherits hc.2 s hs
      rw [NoModuleAbove, ancestors_of_some hr.ordered hs, List.forall_mem_cons,
        List.getLast?_cons_of_ne_nil (List.ne_nil_of_mem (h.mem_ancestors_self s)),
        and_iff_right hnot]
      exact ih s.index (hr.ordered _ s hs) hsuper

/-! ## Messages to all values -/

theorem Regular.isSome_findMethod (hr : h.Regular) (hc : Core.object ∈ h.ancestors c)
    (hname : name ∈ Core.universalNames) : (h.findMethod c name).isSome = true := by
  obtain ⟨m, hm⟩ := OrderedMap.exists_get?_of_mem_keys (hr.mem_methods_object hname)
  rw [findMethod, List.findSome?_isSome_iff]
  exact ⟨Core.object, hc, Option.isSome_iff_exists.2 ⟨m, hm⟩⟩

theorem Regular.object_mem_ancestors (hr : h.Regular) (hc : c.index < Core.heap.classes.size) :
    Core.object ∈ h.ancestors c := by
  have hcore : ∀ i < Core.heap.classes.size, Core.object ∈ Core.heap.ancestors ⟨i⟩ := by decide
  rw [hr.core_ancestors hc]
  exact hcore c.index hc

/-- Every value finds the methods that are meant for it, unless it is an object whose class inherits
from a module. -/
theorem Regular.isSome_methodOf (hr : h.Regular) {v : Value}
    (hv : ∀ r, v = .object r → h.NoModuleAbove (h.object r).klass)
    (hname : name ∈ Core.universalNames) : (h.methodOf v name).isSome = true := by
  have hcore : ∀ c : ClassRef, c.index < Core.heap.classes.size →
      (h.findMethod c name).isSome = true :=
    fun c hc => hr.isSome_findMethod (hr.object_mem_ancestors hc) hname
  cases v with
  | object r =>
    have hlast := (hr.getLast?_ancestors_iff (hr.lives_classOf (.object r))).2 (hv r rfl)
    have hmem : Core.object ∈ h.ancestors (h.object r).klass := List.mem_of_getLast? hlast
    change (h.findMethod ((h.object r).singleton.getD (h.object r).klass) name).isSome = true
    cases hs : (h.object r).singleton with
    | none => exact hr.isSome_findMethod hmem hname
    | some s =>
      obtain ⟨hlives, -, hsuper⟩ := hr.object_singleton hs
      refine hr.isSome_findMethod ?_ hname
      rw [Option.getD_some, ancestors_of_some hr.ordered hsuper]
      exact List.mem_cons_of_mem _ hmem
  | klass c =>
    change (h.methodOfClass c name).isSome = true
    unfold methodOfClass
    rw [Option.orElse_eq_orElse, Option.orElse_eq_or, Option.isSome_or, Bool.or_eq_true]
    refine .inr (hcore _ ?_)
    change (if (h.klass c).isModule then Core.module else Core.klass).index < _
    split <;> decide
  | bool b => cases b <;> exact hcore _ (of_decide_eq_true rfl)
  | nil | int | float | symbol | str | array | hash | range | proc =>
    exact hcore _ (of_decide_eq_true rfl)

end Heap

namespace Session

/-- In all that any sequence of programs reaches, a class that is not a singleton has `Object` as
its last ancestor exactly if neither it nor another of its ancestors is a module, and every value
responds to the methods that are meant for all values, unless it is an object whose class has a
module among its ancestors. -/
theorem universal_methods_unless_module_above (sourceName : String) (host : Host)
    (ps : List Program) :
    let h := (afterAll (start sourceName host) ps).heap
    (∀ c : ClassRef, c.index < h.classes.size → (h.klass c).isSingleton = false →
      ((h.ancestors c).getLast? = some Core.object ↔ h.NoModuleAbove c)) ∧
    ∀ v : Value, (∀ r, v = .object r → h.NoModuleAbove (h.object r).klass) →
      ∀ name ∈ Core.universalNames, (h.methodOf v name).isSome = true := by
  intro h
  have hr : h.Regular := regular_afterAll Core.regular ps
  refine ⟨fun c hc hord => hr.getLast?_ancestors_iff ⟨hc, hord⟩, fun v hv name hname => ?_⟩
  exact hr.isSome_methodOf hv hname

/-- A class can inherit from a module, and then its instances lack the methods for all values. -/
theorem module_above_hides_universal_methods :
    let h := (afterAll (start) [.text "module M\nend\nclass A < M\nend\n$x = A.new" "main"]).heap
    "inspect" ∈ Core.universalNames ∧ 1 < h.objects.size ∧
      (h.methodOf (.object ⟨1⟩) "inspect").isNone = true ∧ (h.object ⟨1⟩).klass = ⟨16⟩ ∧
      (h.klass ⟨16⟩).isModule = false ∧ (h.klass ⟨16⟩).isSingleton = false ∧
      (h.ancestors ⟨16⟩).getLast? = some ⟨15⟩ := by
  decide +kernel

end Session

end Spinel
