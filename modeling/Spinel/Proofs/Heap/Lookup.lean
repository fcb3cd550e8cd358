import Spinel.Proofs.Heap.Regular

/-!
# What is found on a regular heap

Whatever a regular heap holds and whatever is looked up on it is good. A value whose class inherits
from a core class is a built-in value of that class, or has one behind it (`Heap.Regular.hasShape`),
so a built-in method that is found for a value can convert it (`Heap.Regular.accepts_of_methodOf`).
-/

namespace Spinel

namespace Heap

variable [Secrecy] {h : Heap} {v : Value} {c : ClassRef} {name : String}

/-! ## Contents of cells -/

theorem Regular.lives_scope (hr : h.Regular) (s : ScopeRef) : Lives h (h.scope s) := by
  by_cases hs : s.index < h.scopes.size
  · exact (hr.scopes s hs).lives
  · have hdefault : h.scope s = default := Store.get_of_size_le (Nat.le_of_not_lt hs)
    rw [hdefault]
    exact ⟨OrderedMap.lives_empty, lives_none, trivial, lives_none, lives_none⟩

theorem Regular.lives_receiver (hr : h.Regular) (s : ScopeRef) :
    Lives h (h.scope s).receiver := (hr.lives_scope s).2.2.1

/-- Definitions in a scope add to its class or module, or to `Object`. -/
theorem Regular.lives_module (hr : h.Regular) (s : ScopeRef) :
    Lives h (.klass ((h.scope s).module.getD Core.object) : Value) := by
  have hmodule := (hr.lives_scope s).2.2.2.1
  cases hm : (h.scope s).module with
  | none => exact hr.lives_coreValue (by decide)
  | some c =>
    rw [hm] at hmodule
    exact lives_some.1 hmodule

theorem Regular.lives_constants (hr : h.Regular) (c : ClassRef) :
    Lives h (h.klass c).constants := by
  by_cases hc : c.index < h.classes.size
  · exact (hr.classes c hc).constants
  · have hdefault : h.klass c = default := Store.get_of_size_le (Nat.le_of_not_lt hc)
    rw [hdefault]
    exact OrderedMap.lives_empty

theorem Regular.lives_slots (hr : h.Regular) (c : ClassRef) : Lives h (h.klass c).slots := by
  by_cases hc : c.index < h.classes.size
  · exact (hr.classes c hc).slots
  · have hdefault : h.klass c = default := Store.get_of_size_le (Nat.le_of_not_lt hc)
    rw [hdefault]
    exact OrderedMap.lives_empty

theorem Regular.lives_variables (hr : h.Regular) (r : ObjectRef) :
    Lives h (h.object r).slots := by
  by_cases hlives : r.index < h.objects.size
  · exact (hr.objects r hlives).slots
  · have hdefault : h.object r = default := Store.get_of_size_le (Nat.le_of_not_lt hlives)
    rw [hdefault]
    exact OrderedMap.lives_empty

theorem Regular.lives_representation (hr : h.Regular) (hv : Lives h v) :
    Lives h (h.representation v) := by
  cases v with
  | object r =>
    change Lives h ((h.object r).base.getD (.object r))
    cases hb : (h.object r).base with
    | none => exact hv
    | some w => exact (hr.objects r hv).base w hb
  | nil | bool | int | float | symbol | str | array | hash | range | klass | proc => exact hv

theorem Regular.lives_textRef? (hr : h.Regular) (hv : Lives h v) : Lives h (h.textRef? v) := by
  have hrep := hr.lives_representation hv
  intro r hf
  unfold textRef? at hf
  split at hf
  · next heq => rw [heq] at hrep; cases hf; exact hrep
  · cases hf

theorem Regular.lives_listRef? (hr : h.Regular) (hv : Lives h v) : Lives h (h.listRef? v) := by
  have hrep := hr.lives_representation hv
  intro r hf
  unfold listRef? at hf
  split at hf
  · next heq => rw [heq] at hrep; cases hf; exact hrep
  · cases hf

theorem Regular.lives_tableRef? (hr : h.Regular) (hv : Lives h v) : Lives h (h.tableRef? v) := by
  have hrep := hr.lives_representation hv
  intro r hf
  unfold tableRef? at hf
  split at hf
  · next heq => rw [heq] at hrep; cases hf; exact hrep
  · cases hf

theorem Regular.lives_proc? (hr : h.Regular) (hv : Lives h v) : Lives h (h.proc? v) := by
  have hrep := hr.lives_representation hv
  intro r hf
  unfold proc? at hf
  split at hf
  · next heq => rw [heq] at hrep; cases hf; exact hrep
  · cases hf

/-! ## Variables and constants -/

/-- What is first found along a chain has what all that could be found has. -/
theorem lives_findSome? {α β : Type} [Refers β] {as : List α} {f : α → Option β}
    (hf : ∀ a ∈ as, Lives h (f a)) : Lives h (as.findSome? f) := by
  intro b hb
  obtain ⟨a, ha, hfa⟩ := List.exists_of_findSome?_eq_some hb
  exact hf a ha b hfa

theorem lives_orElse {α : Type} [Refers α] {a b : Option α} (ha : Lives h a) (hb : Lives h b) :
    Lives h (a <|> b) := by
  cases a with
  | none => exact hb
  | some a => exact ha

theorem lives_get? {κ α : Type} [BEq κ] [Refers α] {m : OrderedMap κ α} (hm : Lives h m) (k : κ) :
    Lives h (m.get? k) :=
  fun _ ha => OrderedMap.lives_of_get? hm ha

theorem Regular.lives_findConstant (hr : h.Regular) (c : ClassRef) (name : String) :
    Lives h (h.findConstant c name) :=
  lives_findSome? fun k _ => lives_get? (hr.lives_constants k) name

theorem Regular.lives_findClassVariable (hr : h.Regular) (c : ClassRef) (name : String) :
    Lives h (h.findClassVariable c name) :=
  lives_findSome? fun k _ => lives_get? (hr.lives_slots k) name

theorem Regular.lives_findLocal (hr : h.Regular) (s : ScopeRef) (name : String) :
    Lives h (h.findLocal s name) :=
  lives_findSome? fun k _ => lives_get? (hr.lives_scope k).1 name

theorem Regular.lives_constantIn (hr : h.Regular) (s : ScopeRef) (name : String) :
    Lives h (h.constantIn s name) := by
  refine lives_orElse (lives_get? (hr.lives_scope s).1 name) ?_
  cases (h.scope s).module with
  | none => exact lives_none
  | some m =>
    exact lives_orElse (lives_findSome? fun k _ => lives_get? (hr.lives_constants k) name)
      (hr.lives_findConstant m name)

theorem Regular.lives_lookupConstant (hr : h.Regular) (s : ScopeRef) (name : String) :
    Lives h (h.lookupConstant s name) :=
  lives_findSome? fun k _ => hr.lives_constantIn k name

theorem Regular.lives_instanceVariable (hr : h.Regular) (v : Value) (name : String) :
    Lives h (h.instanceVariable v name) := by
  unfold instanceVariable
  split
  · exact lives_ofOption (lives_get? (hr.lives_variables _) name)
  · exact lives_ofOption (lives_get? (hr.lives_slots _) name)
  · trivial

end Heap

/-! ## Shapes of the core classes -/

/-- The core classes of built-in values. -/
def Core.valueClasses : List ClassRef :=
  [array, hash, string, range, proc, integer, float, numeric, symbol, nilClass, trueClass,
    falseClass, module, klass]

/-- The built-in values that a core class stands for. -/
inductive Core.HasShape : ClassRef → Value → Prop
  | array (r : ListRef) : HasShape array (.array r)
  | hash (r : TableRef) : HasShape hash (.hash r)
  | string (r : TextRef) : HasShape string (.str r)
  | range (low high : Int64) : HasShape range (.range low high)
  | proc (c : Callable) : HasShape proc (.proc c)
  | integer (x : Int64) : HasShape integer (.int x)
  | float (x : Float) : HasShape float (.float x)
  | wholeNumber (x : Int64) : HasShape numeric (.int x)
  | number (x : Float) : HasShape numeric (.float x)
  | symbol (name : String) : HasShape symbol (.symbol name)
  | nil : HasShape nilClass .nil
  | true : HasShape trueClass (.bool true)
  | false : HasShape falseClass (.bool false)
  | module (c : ClassRef) : HasShape module (.klass c)
  | klass (c : ClassRef) : HasShape klass (.klass c)

/-- The core class whose instances have a layout. -/
def Creation.Layout.core : Layout → ClassRef
  | .array => Core.array
  | .string => Core.string
  | .hash => Core.hash
  | .range => Core.range
  | .proc => Core.proc
  | .object => Core.object

theorem Creation.eq_core_of_decides {k : ClassRef} {l : Layout} (hk : decides k = some (some l)) :
    k = l.core := by
  unfold decides at hk
  repeat' split at hk
  all_goals cases hk
  all_goals exact eq_of_beq ‹_›

/-- What the nearest core class says about the instances of a class with a layout. -/
def Creation.Layout.decision : Layout → Option (Option Layout)
  | .object => none
  | l => some (some l)

theorem Creation.decision_of_layout? {h : Heap} {c : ClassRef} {l : Layout}
    (hl : layout? h c = some l) : (h.ancestors c).findSome? decides = l.decision := by
  unfold layout? at hl
  split at hl
  · cases hl
  · cases hd : (h.ancestors c).findSome? decides with
    | none =>
      rw [hd] at hl
      cases hl
      rfl
    | some d =>
      rw [hd] at hl
      obtain rfl : d = some l := hl
      cases l with
      | object =>
        obtain ⟨k, -, hk⟩ := List.exists_of_findSome?_eq_some hd
        obtain rfl : k = Core.object := eq_core_of_decides hk
        cases hk
      | array | string | hash | range | proc => rfl

/-- No core class of values inherits from another one that makes instances. -/
theorem Creation.eq_core_of_mem_ancestors {k : ClassRef} {l : Layout}
    (hk : k ∈ Core.valueClasses) (hmem : k ∈ Core.heap.ancestors l.core) : k = l.core := by
  have hall : ∀ k ∈ Core.heap.ancestors l.core, k ∈ Core.valueClasses → k = l.core := by
    cases l <;> decide
  exact hall k hmem hk

theorem Creation.decides_of_mem {k : ClassRef} (hk : k ∈ Core.valueClasses) :
    decides k ≠ none := by
  have hall : ∀ k ∈ Core.valueClasses, (decides k).isSome = true := by decide
  exact Option.isSome_iff_ne_none.1 (hall k hk)

namespace Heap

section CoreClasses

variable {h : Heap} {v : Value} {k : ClassRef}

/-- Core classes inherit from what they inherit from in a new session. -/
def CoreInherits (h : Heap) : Prop :=
  ∀ c : ClassRef, c.index < Core.heap.classes.size → h.ancestors c = Core.heap.ancestors c

/-- Which core classes of values a core class inherits from. -/
theorem CoreInherits.mem_of_core (hcore : h.CoreInherits) (c : ClassRef) {ks : List ClassRef}
    (hc : c.index < Core.heap.classes.size)
    (hks : (Core.heap.ancestors c).filter (Core.valueClasses.contains ·) = ks)
    (hk : k ∈ Core.valueClasses) (hmem : k ∈ h.ancestors c) : k ∈ ks := by
  rw [← hks, List.mem_filter, ← hcore c hc]
  exact ⟨hmem, List.contains_iff_mem.2 hk⟩

/-- If the class of a value other than an object inherits from a core class, then it is a value of
that class. -/
theorem CoreInherits.hasShape (hcore : h.CoreInherits) (hv : ∀ r, v ≠ .object r)
    (hk : k ∈ Core.valueClasses) (hmem : k ∈ h.ancestors (h.classOf v)) : Core.HasShape k v := by
  cases v with
  | object r => exact absurd rfl (hv r)
  | nil =>
    have hone : k ∈ [Core.nilClass] := hcore.mem_of_core Core.nilClass (by decide) rfl hk hmem
    exact List.mem_singleton.1 hone ▸ .nil
  | bool b =>
    cases b with
    | true =>
      have hone : k ∈ [Core.trueClass] := hcore.mem_of_core Core.trueClass (by decide) rfl hk hmem
      exact List.mem_singleton.1 hone ▸ .true
    | false =>
      have hone : k ∈ [Core.falseClass] := hcore.mem_of_core Core.falseClass (by decide) rfl hk hmem
      exact List.mem_singleton.1 hone ▸ .false
  | int x =>
    have htwo : k ∈ [Core.integer, Core.numeric] :=
      hcore.mem_of_core Core.integer (by decide) rfl hk hmem
    rcases List.mem_cons.1 htwo with rfl | hone
    · exact .integer x
    · exact List.mem_singleton.1 hone ▸ .wholeNumber x
  | float x =>
    have htwo : k ∈ [Core.float, Core.numeric] :=
      hcore.mem_of_core Core.float (by decide) rfl hk hmem
    rcases List.mem_cons.1 htwo with rfl | hone
    · exact .float x
    · exact List.mem_singleton.1 hone ▸ .number x
  | symbol name =>
    have hone : k ∈ [Core.symbol] := hcore.mem_of_core Core.symbol (by decide) rfl hk hmem
    exact List.mem_singleton.1 hone ▸ .symbol name
  | str r =>
    have hone : k ∈ [Core.string] := hcore.mem_of_core Core.string (by decide) rfl hk hmem
    exact List.mem_singleton.1 hone ▸ .string r
  | array r =>
    have hone : k ∈ [Core.array] := hcore.mem_of_core Core.array (by decide) rfl hk hmem
    exact List.mem_singleton.1 hone ▸ .array r
  | hash r =>
    have hone : k ∈ [Core.hash] := hcore.mem_of_core Core.hash (by decide) rfl hk hmem
    exact List.mem_singleton.1 hone ▸ .hash r
  | range low high =>
    have hone : k ∈ [Core.range] := hcore.mem_of_core Core.range (by decide) rfl hk hmem
    exact List.mem_singleton.1 hone ▸ .range low high
  | proc c =>
    have hone : k ∈ [Core.proc] := hcore.mem_of_core Core.proc (by decide) rfl hk hmem
    exact List.mem_singleton.1 hone ▸ .proc c
  | klass c =>
    have hmem' : k ∈ h.ancestors (if (h.klass c).isModule then Core.module else Core.klass) := hmem
    split at hmem'
    · have hone : k ∈ [Core.module] := hcore.mem_of_core Core.module (by decide) rfl hk hmem'
      exact List.mem_singleton.1 hone ▸ .module c
    · have htwo : k ∈ [Core.klass, Core.module] :=
        hcore.mem_of_core Core.klass (by decide) rfl hk hmem'
      rcases List.mem_cons.1 htwo with rfl | hone
      · exact .klass c
      · exact List.mem_singleton.1 hone ▸ .module c

end CoreClasses

variable [Secrecy] {h : Heap} {v : Value} {c k : ClassRef} {name : String}

theorem Regular.core_ancestors (hr : h.Regular) (hc : c.index < Core.heap.classes.size) :
    h.ancestors c = Core.heap.ancestors c :=
  hr.core.ancestors Core.ordered hr.ordered hc

/-- A core class among the ancestors of the class of an object is the one that decided what stands
behind the object. -/
theorem Regular.hasShape_object (hr : h.Regular) {r : ObjectRef} (hk : k ∈ Core.valueClasses)
    (hmem : k ∈ h.ancestors (h.object r).klass) :
    Core.HasShape k (h.representation (.object r)) := by
  by_cases hlives : r.index < h.objects.size
  · have ho := hr.objects r hlives
    have hbacks := ho.backs
    change Core.HasShape k ((h.object r).base.getD (.object r))
    cases hd : (h.ancestors (h.object r).klass).findSome? Creation.decides with
    | none => exact absurd (List.findSome?_eq_none_iff.1 hd k hmem) (Creation.decides_of_mem hk)
    | some d =>
      obtain ⟨k', hk', hall⟩ := nearest_decides hr.ordered hd
      have hmem' := hall k hmem (Creation.decides_of_mem hk)
      -- the class that decided is a core class, whose ancestors are known
      have hcore : ∀ l : Creation.Layout, d = some l → k = l.core := by
        rintro l rfl
        rw [Creation.eq_core_of_decides hk', hr.core_ancestors (by cases l <;> decide)] at hmem'
        exact Creation.eq_core_of_mem_ancestors hk hmem'
      rw [hd] at hbacks
      generalize (h.object r).base = base at hbacks
      cases hbacks with
      | array r => exact hcore _ rfl ▸ .array r
      | string r => exact hcore _ rfl ▸ .string r
      | hash r => exact hcore _ rfl ▸ .hash r
      | range low high => exact hcore _ rfl ▸ .range low high
      | proc c => exact hcore _ rfl ▸ .proc c
  · have hdefault : h.object r = default := Store.get_of_size_le (Nat.le_of_not_lt hlives)
    rw [hdefault, hr.core_ancestors (by decide)] at hmem
    exact absurd hk (List.mem_singleton.1 hmem ▸ by decide)

/-- If the class of a value inherits from a core class, then the value, or what stands behind it, is
a built-in value of that class. -/
theorem Regular.hasShape (hr : h.Regular) (hk : k ∈ Core.valueClasses)
    (hmem : k ∈ h.ancestors (h.classOf v)) : Core.HasShape k (h.representation v) := by
  have hcore : h.CoreInherits := fun _ hc => hr.core_ancestors hc
  cases v with
  | object r => exact hr.hasShape_object hk hmem
  | _ => exact hcore.hasShape nofun hk hmem

/-! ## Methods -/

/-- A callable that is found as a method of a value: its scope is on the heap, and if it is built
in, the value is one of the class that has it. -/
def Answers (h : Heap) (v : Value) (m : Callable) : Prop :=
  m.InScope h ∧ ∀ b, m = .builtin b → b.owner ∈ h.ancestors (h.classOf v)

theorem Regular.answers_of_mem (hr : h.Regular) {m : Callable} (hk : Lives h k)
    (hm : (h.klass k).methods.get? name = some m)
    (hmem : k.index < Core.heap.classes.size → k ∈ h.ancestors (h.classOf v)) : h.Answers v m := by
  obtain ⟨hscope, howner⟩ := (hr.classes k hk).methods name m hm
  refine ⟨hscope, fun b hb => howner b hb ▸ hmem ?_⟩
  rw [← howner b hb]
  cases b <;> exact of_decide_eq_true rfl

theorem Regular.lives_classOf (hr : h.Regular) (v : Value) :
    Lives h (.klass (h.classOf v) : Value) := by
  cases v with
  | object r =>
    by_cases hlives : r.index < h.objects.size
    · exact (hr.objects r hlives).klass
    · have hdefault : h.object r = default := Store.get_of_size_le (Nat.le_of_not_lt hlives)
      change Lives h (.klass (h.object r).klass : Value)
      rw [hdefault]
      exact hr.lives_coreValue (by decide)
  | klass c =>
    change Lives h (.klass (if (h.klass c).isModule then Core.module else Core.klass) : Value)
    split <;> exact hr.lives_coreValue (by decide)
  | bool b => cases b <;> exact hr.lives_coreValue (of_decide_eq_true rfl)
  | nil | int | float | symbol | str | array | hash | range | proc =>
    exact hr.lives_coreValue (of_decide_eq_true rfl)

/-- Programs can get hold of the superclass of a class that they can get hold of. -/
theorem Regular.lives_superclass (hr : h.Regular) (hc : Lives h (.klass c : Value)) :
    Lives h ((h.klass c).superclass.map Value.klass) := by
  intro v hv
  obtain ⟨s, hs, rfl⟩ := Option.map_eq_some_iff.1 hv
  exact (hr.classes c hc.1).inherits hc.2 s hs

theorem Regular.lives_lineage (hr : h.Regular) (hc : Lives h (.klass c : Value)) :
    Lives h ((h.ancestors c).map Value.klass) := by
  obtain ⟨i⟩ := c
  induction i using Nat.strongRecOn with
  | ind i ih =>
    cases hs : (h.klass ⟨i⟩).superclass with
    | none =>
      rw [ancestors_of_none hs]
      exact lives_cons.2 ⟨hc, lives_nil⟩
    | some s =>
      have hsuper := (hr.classes _ hc.1).inherits hc.2 s hs
      rw [ancestors_of_some hr.ordered hs]
      exact lives_cons.2 ⟨hc, ih s.index (hr.ordered _ s hs) hsuper⟩

theorem Regular.answers_of_findMethod (hr : h.Regular) {m : Callable}
    (hm : h.findMethod (h.classOf v) name = some m) : h.Answers v m := by
  obtain ⟨k, hk, hget⟩ := exists_of_findMethod hm
  exact hr.answers_of_mem (lives_ancestors hr.ordered (hr.lives_classOf v).1 k hk) hget fun _ => hk

theorem Regular.object_singleton (hr : h.Regular) {r : ObjectRef} {s : ClassRef}
    (hs : (h.object r).singleton = some s) : Lives h s ∧ Core.heap.classes.size ≤ s.index ∧
      (h.klass s).superclass = some (h.object r).klass := by
  by_cases hlives : r.index < h.objects.size
  · exact (hr.objects r hlives).singleton s hs
  · have hdefault : h.object r = default := Store.get_of_size_le (Nat.le_of_not_lt hlives)
    rw [hdefault] at hs
    cases hs

theorem Regular.class_singleton (hr : h.Regular) {s : ClassRef}
    (hs : (h.klass c).singleton = some s) : Lives h s ∧ Core.heap.classes.size ≤ s.index := by
  by_cases hlives : c.index < h.classes.size
  · exact (hr.classes c hlives).singleton s hs
  · have hdefault : h.klass c = default := Store.get_of_size_le (Nat.le_of_not_lt hlives)
    rw [hdefault] at hs
    cases hs

theorem Regular.answers_of_methodOf (hr : h.Regular) {m : Callable}
    (hm : h.methodOf v name = some m) : h.Answers v m := by
  cases v with
  | object r =>
    have hm' : h.findMethod ((h.object r).singleton.getD (h.object r).klass) name = some m := hm
    cases hs : (h.object r).singleton with
    | none =>
      rw [hs] at hm'
      exact hr.answers_of_findMethod hm'
    | some s =>
      rw [hs] at hm'
      obtain ⟨hlives, hsize, hsuper⟩ := hr.object_singleton hs
      obtain ⟨k, hk, hget⟩ := exists_of_findMethod hm'
      refine hr.answers_of_mem (lives_ancestors hr.ordered hlives k hk) hget fun hcore => ?_
      change k ∈ h.ancestors s at hk
      rw [ancestors_of_some hr.ordered hsuper] at hk
      rcases List.mem_cons.1 hk with rfl | hk
      · exact absurd hcore (Nat.not_lt.2 hsize)
      · exact hk
  | klass c =>
    have hm' : h.methodOfClass c name = some m := hm
    unfold methodOfClass at hm'
    rw [Option.orElse_eq_orElse, Option.orElse_eq_or, Option.or_eq_some_iff] at hm'
    rcases hm' with hsingle | ⟨-, hm'⟩
    · obtain ⟨k, hk, hbind⟩ := List.exists_of_findSome?_eq_some hsingle
      obtain ⟨s, hs, hget⟩ := Option.bind_eq_some_iff.1 hbind
      obtain ⟨hlives, hsize⟩ := hr.class_singleton hs
      exact hr.answers_of_mem hlives hget fun hcore => absurd hcore (Nat.not_lt.2 hsize)
    · exact hr.answers_of_findMethod hm'
  | nil | bool | int | float | symbol | str | array | hash | range | proc =>
    exact hr.answers_of_findMethod hm

end Heap

end Spinel
