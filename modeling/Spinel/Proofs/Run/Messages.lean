import Spinel.Proofs.Run.Comparison

/-!
# Messages that nobody has redefined

A heap where the messages that show, compare and hash values lead to the methods of the start
(`Heap.CoreDisplay`). There may be any classes beside the core classes, and instances of subclasses
of the value classes. Each value then finds a method of a core class that it is a value of, itself
or by what stands behind it (`Heap.CoreDisplay.exists_methodOf`).
-/

namespace Spinel

namespace Core

/-- The messages that show, compare and hash values. -/
def displayNames : List String := ["inspect", "to_s", "puts", "join", "==", "hash"]

/-- The value classes whose subclasses have instances. -/
def openClasses : List ClassRef := [array, hash, string, range, proc]

/-- The built-in methods that make the text of their receiver. -/
def textMethods : List Builtin :=
  [.object .text, .object .inspect, .nil .text, .nil .inspect, .module .name, .integer .text,
    .float .text, .string .itself, .string .inspect, .symbol .text, .symbol .inspect,
    .range .text, .array .inspect, .hash .inspect]

/-- The built-in method that a class has under a name. -/
def builtin? (k : ClassRef) (name : String) : Option Builtin :=
  match (heap.klass k).methods.get? name with
  | some (.builtin b) => some b
  | _ => none

/-- Only core classes have methods at the start, and these are built in. -/
theorem builtin?_eq_some_of_get? {k : ClassRef} {name : String} {m : Callable}
    (hname : name ∈ displayNames) (hm : (heap.klass k).methods.get? name = some m) :
    k.index < heap.classes.size ∧ ∃ b, builtin? k name = some b ∧ m = .builtin b := by
  have hall : ∀ i < heap.classes.size, ∀ name ∈ displayNames,
      ((heap.klass ⟨i⟩).methods.get? name).isSome = (builtin? ⟨i⟩ name).isSome := by
    decide +kernel
  by_cases hk : k.index < heap.classes.size
  · refine ⟨hk, ?_⟩
    have hsome := hall k.index hk name hname
    rw [hm] at hsome
    obtain ⟨b, hb⟩ := Option.isSome_iff_exists.1 hsome.symm
    refine ⟨b, hb, ?_⟩
    unfold builtin? at hb
    rw [hm] at hb
    cases m with
    | builtin b' => exact congrArg _ (Option.some.inj hb)
    | _ => cases hb
  · have hdefault : heap.klass k = default := Store.get_of_size_le (Nat.le_of_not_lt hk)
    rw [hdefault] at hm
    cases hm

end Core

namespace Heap

/-- The core classes inherit as they do at the start, the messages that show, compare and hash
values lead to the methods of the start, and all objects are of classes that descend from `Object`.
Where the class of an object descends from a value class, a value of that class stands behind it. -/
structure CoreDisplay (h : Heap) : Prop where
  superclass : ∀ c : ClassRef, c.index < Core.heap.classes.size →
    (h.klass c).superclass = (Core.heap.klass c).superclass
  method : ∀ name ∈ Core.displayNames, ∀ c : ClassRef,
    (h.klass c).methods.get? name = (Core.heap.klass c).methods.get? name
  singleton : ∀ name ∈ Core.displayNames, ∀ c s : ClassRef, (h.klass c).singleton = some s →
    (h.klass s).methods.get? name = none
  descends : ∀ r : ObjectRef, Core.object ∈ h.ancestors (h.methodClass r)
  backed : ∀ r : ObjectRef, ∀ k ∈ Core.valueClasses, k ∈ h.ancestors (h.methodClass r) →
    k ∈ Core.openClasses ∧ Core.HasShape k (h.representation (.object r))

/-- A value is what the methods of a core class take as their receiver. -/
inductive Receives (h : Heap) (v : Value) : ClassRef → Prop
  | object : Receives h v Core.object
  | array (r : ListRef) (hr : h.listRef? v = some r) : Receives h v Core.array
  | hash (r : TableRef) (hr : h.tableRef? v = some r) : Receives h v Core.hash
  | string (r : TextRef) (hr : h.textRef? v = some r) : Receives h v Core.string
  | range (low high : Int64) (hr : h.range? v = some (low, high)) : Receives h v Core.range
  | proc (c : Callable) (hc : h.proc? v = some c) : Receives h v Core.proc
  | value (c : ClassRef) (hc : c ∉ Core.openClasses) (hv : Core.HasShape c v) : Receives h v c

variable {h : Heap} {v : Value} {name : String} {k : ClassRef}

theorem Receives.exists_listRef? (hv : h.Receives v Core.array) : ∃ r, h.listRef? v = some r := by
  cases hv with
  | array r hr => exact ⟨r, hr⟩
  | value _ hc => exact absurd (by decide) hc

theorem Receives.exists_tableRef? (hv : h.Receives v Core.hash) : ∃ r, h.tableRef? v = some r := by
  cases hv with
  | hash r hr => exact ⟨r, hr⟩
  | value _ hc => exact absurd (by decide) hc

theorem Receives.exists_textRef? (hv : h.Receives v Core.string) : ∃ r, h.textRef? v = some r := by
  cases hv with
  | string r hr => exact ⟨r, hr⟩
  | value _ hc => exact absurd (by decide) hc

theorem Receives.exists_range? (hv : h.Receives v Core.range) :
    ∃ bounds, h.range? v = some bounds := by
  cases hv with
  | range low high hr => exact ⟨(low, high), hr⟩
  | value _ hc => exact absurd (by decide) hc

/-- Values of the other classes do not stand behind objects. -/
theorem Receives.hasShape (hv : h.Receives v k) (hk : k ∉ Core.object :: Core.openClasses) :
    Core.HasShape k v := by
  cases hv with
  | value _ _ hshape => exact hshape
  | _ => exact absurd (by decide) hk

theorem CoreDisplay.coreEquality (hd : h.CoreDisplay) : h.CoreEquality where
  superclass := hd.superclass
  method := hd.method "==" (by decide)
  singleton := hd.singleton "==" (by decide)

theorem CoreDisplay.coreInherits (hd : h.CoreDisplay) : h.CoreInherits :=
  fun _ hc => hd.coreEquality.ancestors hc

/-- The class where the methods of a value are looked up. -/
def answerClass (h : Heap) : Value → ClassRef
  | .object r => h.methodClass r
  | v => h.classOf v

/-- Values other than objects stand for themselves. -/
theorem plain_of_ne_object (hv : ∀ r, v ≠ .object r) :
    h.answerClass v = h.classOf v ∧ h.representation v = v := by
  cases v with
  | object r => exact absurd rfl (hv r)
  | _ => exact ⟨rfl, rfl⟩

/-- No class has such a method for itself alone. -/
theorem CoreDisplay.methodOf_eq_findMethod (hd : h.CoreDisplay) (hname : name ∈ Core.displayNames)
    (v : Value) : h.methodOf v name = h.findMethod (h.answerClass v) name := by
  cases v with
  | klass c =>
    have hnone : ((h.ancestors c).findSome? fun k =>
        (h.klass k).singleton.bind fun s => (h.klass s).methods.get? name) = none := by
      rw [List.findSome?_eq_none_iff]
      intro k _
      cases hs : (h.klass k).singleton with
      | none => rfl
      | some s => exact hd.singleton name hname k s hs
    change h.methodOfClass c name = _
    unfold methodOfClass
    rw [hnone]
    rfl
  | _ => rfl

/-- All values are of classes that descend from `Object`. -/
theorem CoreDisplay.object_mem_ancestors (hd : h.CoreDisplay) (v : Value) :
    Core.object ∈ h.ancestors (h.answerClass v) := by
  have hcore : ∀ i < Core.heap.classes.size, Core.object ∈ Core.heap.ancestors ⟨i⟩ := by decide
  have hmem : ∀ c : ClassRef, c.index < Core.heap.classes.size → Core.object ∈ h.ancestors c := by
    intro c hc
    rw [hd.coreInherits c hc]
    exact hcore c.index hc
  cases v with
  | object r => exact hd.descends r
  | klass c =>
    change Core.object ∈ h.ancestors (if (h.klass c).isModule then Core.module else Core.klass)
    split <;> exact hmem _ (by decide)
  | bool b => cases b <;> exact hmem _ (of_decide_eq_true rfl)
  | nil | int | float | symbol | str | array | hash | range | proc =>
    exact hmem _ (of_decide_eq_true rfl)

/-- A value is a value of the value classes that its class descends from. -/
theorem CoreDisplay.shape (hd : h.CoreDisplay) (hk : k ∈ Core.valueClasses)
    (hmem : k ∈ h.ancestors (h.answerClass v)) :
    Core.HasShape k (h.representation v) ∧ (k ∉ Core.openClasses → Core.HasShape k v) := by
  by_cases hobject : ∃ r, v = .object r
  · obtain ⟨r, rfl⟩ := hobject
    obtain ⟨hopen, hshape⟩ := hd.backed r k hk hmem
    exact ⟨hshape, fun hnot => absurd hopen hnot⟩
  · have hv : ∀ r, v ≠ .object r := fun r heq => hobject ⟨r, heq⟩
    obtain ⟨hclass, hself⟩ := plain_of_ne_object (h := h) hv
    rw [hclass] at hmem
    have hshape : Core.HasShape k v := hd.coreInherits.hasShape hv hk hmem
    exact ⟨hself.symm ▸ hshape, fun _ => hshape⟩

theorem receives_of_hasShape (hshape : Core.HasShape k (h.representation v))
    (hself : k ∉ Core.openClasses → Core.HasShape k v) : h.Receives v k := by
  by_cases hopen : k ∈ Core.openClasses
  · generalize hu : h.representation v = u at hshape
    cases hshape with
    | array r => exact .array r (by rw [listRef?, hu])
    | hash r => exact .hash r (by rw [tableRef?, hu])
    | string r => exact .string r (by rw [textRef?, hu])
    | range low high => exact .range low high (by rw [range?, hu])
    | proc c => exact .proc c (by rw [proc?, hu])
    | _ => exact absurd hopen (by decide)
  · exact .value k hopen (hself hopen)

/-- If some class that a value descends from has the method, the value finds one, and it is what
that method takes as its receiver. -/
theorem CoreDisplay.exists_methodOf_of_mem (hd : h.CoreDisplay) (hname : name ∈ Core.displayNames)
    (hmem : k ∈ h.ancestors (h.answerClass v)) (hk : (Core.builtin? k name).isSome = true) :
    ∃ k' b, h.methodOf v name = some (.builtin b) ∧ Core.builtin? k' name = some b ∧
      k'.index < Core.heap.classes.size ∧ h.Receives v k' := by
  have hsome : (h.findMethod (h.answerClass v) name).isSome = true := by
    rw [findMethod, List.findSome?_isSome_iff]
    refine ⟨k, hmem, ?_⟩
    rw [hd.method name hname]
    unfold Core.builtin? at hk
    split at hk
    · next heq => rw [heq]; rfl
    · cases hk
  obtain ⟨m, hm⟩ := Option.isSome_iff_exists.1 hsome
  obtain ⟨k', hmem', hget⟩ := exists_of_findMethod hm
  rw [hd.method name hname] at hget
  obtain ⟨hlt, b, hb, rfl⟩ := Core.builtin?_eq_some_of_get? hname hget
  refine ⟨k', b, (hd.methodOf_eq_findMethod hname v).trans hm, hb, hlt, ?_⟩
  have hcore : ∀ i < Core.heap.classes.size, i = Core.object.index ∨
      (⟨i⟩ : ClassRef) ∈ Core.valueClasses := by decide
  rcases hcore k'.index hlt with heq | hvalue
  · have hobject : k' = Core.object := congrArg ClassRef.mk heq
    exact hobject ▸ .object
  · obtain ⟨hshape, hself⟩ := hd.shape hvalue hmem'
    exact receives_of_hasShape hshape hself

theorem CoreDisplay.exists_methodOf (hd : h.CoreDisplay) (hname : name ∈ Core.displayNames)
    (hobject : (Core.builtin? Core.object name).isSome = true) (v : Value) :
    ∃ k b, h.methodOf v name = some (.builtin b) ∧ Core.builtin? k name = some b ∧
      k.index < Core.heap.classes.size ∧ h.Receives v k :=
  hd.exists_methodOf_of_mem hname (hd.object_mem_ancestors v) hobject

/-- What answers to `inspect` and `to_s` makes a text of what it takes as its receiver. -/
theorem CoreDisplay.exists_textMethod (hd : h.CoreDisplay) (hname : name ∈ ["inspect", "to_s"])
    (v : Value) : ∃ b ∈ Core.textMethods, h.methodOf v name = some (.builtin b) ∧
      h.Receives v b.owner := by
  have hall : ∀ i < Core.heap.classes.size, ∀ name ∈ ["inspect", "to_s"],
      (Core.builtin? ⟨i⟩ name).all fun b => b ∈ Core.textMethods ∧ b.owner = ⟨i⟩ := by
    decide +kernel
  have hdisplay : ["inspect", "to_s"] ⊆ Core.displayNames := by decide
  have hobject : ∀ name ∈ ["inspect", "to_s"], (Core.builtin? Core.object name).isSome = true := by
    decide +kernel
  obtain ⟨k, b, hm, hb, hlt, hreceives⟩ :=
    hd.exists_methodOf (hdisplay hname) (hobject name hname) v
  have hin := hall k.index hlt name hname
  rw [hb, Option.all_some, decide_eq_true_iff] at hin
  exact ⟨b, hin.1, hm, hin.2 ▸ hreceives⟩

/-- Arrays and hashes make their texts by methods of their own. -/
theorem CoreDisplay.isCollection_of_textMethod (hd : h.CoreDisplay)
    (hname : name ∈ ["inspect", "to_s"]) {b : Builtin} (hm : h.methodOf v name = some (.builtin b))
    (hb : b.owner = Core.object) : isCollection v = false := by
  have hdisplay : ["inspect", "to_s"] ⊆ Core.displayNames := by decide
  have hcore : ∀ c ∈ [Core.array, Core.hash], ∀ name ∈ ["inspect", "to_s"],
      (Core.builtin? c name).any (·.owner != Core.object) = true := by decide +kernel
  have hown : ∀ c ∈ [Core.array, Core.hash], h.findMethod c name ≠ some (.builtin b) := by
    intro c hc hfound
    obtain ⟨rest, hrest⟩ := h.exists_ancestors_eq_cons c
    have hany := hcore c hc name hname
    rw [findMethod, hrest, List.findSome?_cons, hd.method name (hdisplay hname)] at hfound
    unfold Core.builtin? at hany
    split at hany
    case h_1 b' hget =>
      rw [hget, Option.some.injEq, Callable.builtin.injEq] at hfound
      rw [hfound, Option.any_some, hb] at hany
      cases hany
    case h_2 => cases hany
  cases v with
  | array r => exact absurd hm (hown Core.array (by decide))
  | hash r => exact absurd hm (hown Core.hash (by decide))
  | _ => rfl

/-- A message that one core class alone has a method for. -/
theorem CoreDisplay.methodOf_of_only (hd : h.CoreDisplay) {b : Builtin}
    (hname : name ∈ Core.displayNames) (hb : Core.builtin? k name = some b)
    (honly : ∀ i < Core.heap.classes.size, i ≠ k.index → Core.builtin? ⟨i⟩ name = none)
    (hmem : k ∈ h.ancestors (h.answerClass v)) :
    h.methodOf v name = some (.builtin b) ∧ h.Receives v k := by
  obtain ⟨k', b', hm, hb', hlt, hv⟩ := hd.exists_methodOf_of_mem hname hmem (by rw [hb]; rfl)
  by_cases hk : k'.index = k.index
  · obtain rfl : k' = k := congrArg ClassRef.mk hk
    rw [hb, Option.some.injEq] at hb'
    rw [hm, hb']
    exact ⟨rfl, hv⟩
  · rw [honly k'.index hlt hk] at hb'
    cases hb'

end Heap

end Spinel
