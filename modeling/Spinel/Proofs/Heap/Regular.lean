import Spinel.Proofs.Heap.Ancestors

/-!
# Regular heaps

A heap is regular if all references on it are good, superclasses are older than their subclasses,
and modules and scopes older than what stands in them, built-in methods stand in the core classes
that own them and nowhere else, and behind each object there is a built-in value if its class
inherits from a class of such values, and none if it does not (`Creation.Backs`). The name of each
class is taken where it was defined (`Heap.Housed`). The entries of tables that keep their keys to
themselves are filed under what their keys are (`Heap.FiledAt`). Each way to change a heap keeps it
regular.
-/

namespace Spinel

/-- The class that a built-in method is a method of. -/
def Builtin.owner : Builtin → ClassRef
  | .kernel _ | .object _ => Core.object
  | .nil _ => Core.nilClass
  | .module _ => Core.module
  | .klass _ => Core.klass
  | .numeric _ => Core.numeric
  | .integer _ => Core.integer
  | .float _ => Core.float
  | .string _ => Core.string
  | .symbol _ => Core.symbol
  | .array _ => Core.array
  | .hash _ => Core.hash
  | .range _ => Core.range
  | .proc _ => Core.proc

theorem Core.ordinary : ∀ i < heap.classes.size, (heap.klass ⟨i⟩).isSingleton = false := by decide

/-- What stands behind an instance, by what the nearest core class decides about its class. -/
inductive Creation.Backs : Option (Option Layout) → Option Value → Prop
  | nothing : Backs none none
  | array (r : ListRef) : Backs (some (some .array)) (some (.array r))
  | string (r : TextRef) : Backs (some (some .string)) (some (.str r))
  | hash (r : TableRef) : Backs (some (some .hash)) (some (.hash r))
  | range (low high : Int64) : Backs (some (some .range)) (some (.range low high))
  | proc (c : Callable) : Backs (some (some .proc)) (some (.proc c))

/-- A class or module at a place of the heap. Only modules have no superclass, but for the root of
the hierarchy. -/
structure Class.Regular [S : Secrecy] (h : Heap) (c : ClassRef) (k : Class) : Prop where
  older : ∀ s, k.superclass = some s → s.index < c.index
  inherits : k.isSingleton = false → ∀ s, k.superclass = some s → Lives h (.klass s : Value)
  rooted : k.isSingleton = false → c ≠ Core.object → k.isModule = k.superclass.isNone
  inside : ∀ p, k.parent = some p → p.index < c.index ∧ Lives h (.klass p : Value) ∧ p ≠ Core.object
  named : S.fromText → k.isSingleton = false → IsPlainName k.name
  methods : ∀ name m, k.methods.get? name = some m →
    m.InScope h ∧ ∀ b, m = .builtin b → b.owner = c
  constants : Lives h k.constants
  slots : Lives h k.slots
  singleton : ∀ s, k.singleton = some s → Lives h s ∧ Core.heap.classes.size ≤ s.index

/-- An object whose parts live, with what the class decides on behind it. -/
structure Instance.Regular [Secrecy] (h : Heap) (o : Instance) : Prop where
  klass : Lives h (.klass o.klass : Value)
  slots : Lives h o.slots
  singleton : ∀ s, o.singleton = some s →
    Lives h s ∧ Core.heap.classes.size ≤ s.index ∧ (h.klass s).superclass = some o.klass
  backs : Creation.Backs ((h.ancestors o.klass).findSome? Creation.decides) o.base
  base : Lives h o.base

/-- A scope at a place of the heap. -/
structure Scope.Regular [Secrecy] (h : Heap) (s : ScopeRef) (k : Scope) : Prop where
  lives : Lives h k
  older : ∀ p, k.parent = some p → p.index < s.index

/-- The class or module that a class was defined in. -/
def Heap.home (h : Heap) (c : ClassRef) : ClassRef := (h.klass c).parent.getD Core.object

/-- The names of classes and modules are taken in the places where they were defined, each by one of
them alone. -/
structure Heap.Housed (h : Heap) : Prop where
  taken : ∀ c : ClassRef, c.index < h.classes.size → (h.klass c).isSingleton = false →
    (h.klass c).name ∈ (h.klass (h.home c)).constants.keys
  alone : ∀ c c' : ClassRef, c.index < h.classes.size → c'.index < h.classes.size →
    (h.klass c).isSingleton = false → (h.klass c').isSingleton = false →
    (h.klass c).name = (h.klass c').name → h.home c = h.home c' → c = c'

/-- A key as a table shows it: if it is a text it may be kept from programs, but is not reserved. -/
def Heap.Shows [S : Secrecy] (h : Heap) : Value → Prop
  | .str c => c.index < h.texts.size ∧ ¬S.reserved c
  | v => Lives h v

/-- An entry at a place of a table. -/
structure Heap.FiledAt [S : Secrecy] (h : Heap) (r : TableRef) (filed : HashKey) (e : Entry) :
    Prop where
  value : Lives h e.value
  key : h.Shows e.key
  known : ¬S.discreet r → Lives h e.key
  inStep : S.discreet r → ∀ c, e.key = .str c → filed = .str (h.text c)

/-- All cells are as they should be, and the core classes are in their places. -/
structure Heap.Regular [S : Secrecy] (h : Heap) : Prop where
  reserved : ∀ c, S.reserved c → c.index < h.texts.size
  lists : ∀ r : ListRef, Lives h (h.list r)
  tables : ∀ r : TableRef, ∀ e ∈ (h.table r).entries, h.FiledAt r e.1 e.2
  objects : ∀ r : ObjectRef, Lives h r → (h.object r).Regular h
  classes : ∀ c : ClassRef, Lives h c → (h.klass c).Regular h c
  scopes : ∀ s : ScopeRef, Lives h s → (h.scope s).Regular h s
  housed : h.Housed
  core : Core.heap.Enlarges h

section Later

variable {S S' : Secrecy} {h h' : Heap}

theorem Class.Regular.later {c : ClassRef} {k : Class} (hk : @Class.Regular S h c k)
    (e : Heap.ExtendsFrom S h S' h') : @Class.Regular S' h' c k := by
  obtain ⟨older, inherits, rooted, inside, named, methods, constants, slots, singleton⟩ := hk
  exact ⟨older, fun hord s hs => (inherits hord s hs).later e, rooted,
    fun p hp => ⟨(inside p hp).1, (inside p hp).2.1.later e, (inside p hp).2.2⟩,
    fun ht => named (e.policy ▸ ht),
    fun name m hm => ⟨(methods name m hm).1.later e, (methods name m hm).2⟩,
    constants.later e, slots.later e, fun s hs => ⟨(singleton s hs).1.later e, (singleton s hs).2⟩⟩

theorem Scope.Regular.later {s : ScopeRef} {k : Scope} (hk : @Scope.Regular S h s k)
    (e : Heap.ExtendsFrom S h S' h') : @Scope.Regular S' h' s k := by
  obtain ⟨lives, older⟩ := hk
  exact ⟨lives.later e, older⟩

theorem Instance.Regular.later {o : Instance} (hobj : @Instance.Regular S h o)
    (e : Heap.ExtendsFrom S h S' h') (ho : h.Ordered) (ho' : h'.Ordered) :
    @Instance.Regular S' h' o := by
  obtain ⟨klass, slots, singleton, backs, base⟩ := hobj
  refine ⟨klass.later e, slots.later e, fun s hs => ?_, ?_, base.later e⟩
  · obtain ⟨hlives, hcore, hsuper⟩ := singleton s hs
    exact ⟨hlives.later e, hcore, (e.enlarges.grows s hlives).superclass.trans hsuper⟩
  · rw [e.enlarges.ancestors ho ho' klass.1]
    exact backs

theorem Heap.Shows.later {v : Value} (hv : @Heap.Shows S h v)
    (e : Heap.ExtendsFrom S h S' h') : @Heap.Shows S' h' v := by
  cases v with
  | str c =>
    exact ⟨Nat.lt_of_lt_of_le hv.1 e.enlarges.texts, fun hres => hv.2 (e.reserved c hv.1 hres)⟩
  | nil | bool | int | float | symbol | array | hash | range | klass | object | proc =>
    exact Refers.Lives.later hv e

/-- An entry of a table stays in step if the table is still there to keep its key. -/
theorem Heap.FiledAt.later {r : TableRef} {filed : HashKey} {x : Entry}
    (hx : @Heap.FiledAt S h r filed x) (e : Heap.ExtendsFrom S h S' h')
    (hkeeps : S'.discreet r → ∀ c, x.key = .str c → h'.IsKeyOf S'.discreet c) :
    @Heap.FiledAt S' h' r filed x := by
  obtain ⟨value, key, known, inStep⟩ := hx
  refine ⟨value.later e, key.later e, fun hd => (known (e.policy ▸ hd)).later e,
    fun hd c hc => ?_⟩
  rw [hc] at key
  rw [(e.hides c key.1 (.inr (hkeeps hd c hc))).2]
  exact inStep (e.policy ▸ hd) c hc

theorem Class.Grows.insertConstant (k : Class) (name : String) (v : Value) :
    k.Grows { k with constants := k.constants.insert name v } :=
  { Class.Grows.refl k with constants := OrderedMap.keys_subset_insert k.constants name v }

end Later

namespace Heap

variable {S S' : Secrecy} {h h' : Heap}

theorem Shows.of_lives [Secrecy] {v : Value} (hv : Lives h v) : h.Shows v := by
  cases v with
  | str c => exact ⟨hv.1, fun hres => hv.2 (.inl hres)⟩
  | nil | bool | int | float | symbol | array | hash | range | klass | object | proc => exact hv

theorem ordered_of_older (hold : ∀ c : ClassRef, c.index < h.classes.size →
    ∀ s, (h.klass c).superclass = some s → s.index < c.index) : h.Ordered := by
  intro c s hs
  exact hold c (index_lt_of_superclass hs) s hs

theorem Regular.ordered (hr : @Regular S h) : h.Ordered :=
  ordered_of_older fun c hc => (hr.classes c hc).older

/-- All links on a regular heap lead to something older. -/
theorem Regular.founded (hr : @Regular S h) : h.Founded where
  superclass := hr.ordered
  parent := fun c p hp => ((hr.classes c (index_lt_of_parent hp)).inside p hp).1
  scope := fun s p hp => (hr.scopes s (index_lt_of_scope hp)).older p hp

theorem Regular.lives_core (hr : @Regular S h) {c : ClassRef}
    (hc : c.index < Core.heap.classes.size) : @Lives _ _ S h c :=
  Nat.lt_of_lt_of_le hc hr.core.classes

theorem Regular.lives_home (hr : @Regular S h) {c : ClassRef} (hc : c.index < h.classes.size) :
    (h.home c).index < h.classes.size := by
  unfold home
  cases hp : (h.klass c).parent with
  | none => exact hr.lives_core (of_decide_eq_true rfl : Core.object.index < _)
  | some p => exact ((hr.classes c hc).inside p hp).2.1.1

section Names

variable {c c' : ClassRef}

theorem Enlarges.home (g : h.Enlarges h') (hc : c.index < h.classes.size) :
    h'.home c = h.home c := by
  unfold Heap.home
  rw [(g.grows c hc).parent]

theorem Regular.taken_later (hr : @Regular S h) (g : h.Enlarges h') (hc : c.index < h.classes.size)
    (hord : (h'.klass c).isSingleton = false) :
    (h'.klass c).name ∈ (h'.klass (h'.home c)).constants.keys := by
  rw [(g.grows c hc).isSingleton] at hord
  rw [(g.grows c hc).name, g.home hc]
  exact (g.grows _ (hr.lives_home hc)).constants (hr.housed.taken c hc hord)

theorem Regular.alone_later (hr : @Regular S h) (g : h.Enlarges h') (hc : c.index < h.classes.size)
    (hc' : c'.index < h.classes.size) (hord : (h'.klass c).isSingleton = false)
    (hord' : (h'.klass c').isSingleton = false) (hname : (h'.klass c).name = (h'.klass c').name)
    (hhome : h'.home c = h'.home c') : c = c' := by
  rw [(g.grows c hc).isSingleton] at hord
  rw [(g.grows c' hc').isSingleton] at hord'
  rw [(g.grows c hc).name, (g.grows c' hc').name] at hname
  rw [g.home hc, g.home hc'] at hhome
  exact hr.housed.alone c c' hc hc' hord hord' hname hhome

/-- Where no class or module was added, the names of all are taken as they were. -/
theorem Regular.housed_of_enlarges (hr : @Regular S h) (g : h.Enlarges h')
    (hold : ∀ c : ClassRef, c.index < h'.classes.size → (h'.klass c).isSingleton = false →
      c.index < h.classes.size) : h'.Housed where
  taken := fun c hc hord => hr.taken_later g (hold c hc hord) hord
  alone := fun c c' hc hc' hord hord' =>
    hr.alone_later g (hold c hc hord) (hold c' hc' hord') hord hord'

end Names

/-- A heap stays regular if every cell is as it was or is regular by itself. -/
theorem Regular.extendFrom (hr : @Regular S h) (e : ExtendsFrom S h S' h')
    (reserved : ∀ c, S'.reserved c → c.index < h'.texts.size)
    (lists : ∀ r : ListRef, h'.list r = h.list r ∨ @Lives _ _ S' h' (h'.list r))
    (tables : ∀ r : TableRef, h'.table r = h.table r ∨
      ∀ x ∈ (h'.table r).entries, @FiledAt S' h' r x.1 x.2)
    (objects : ∀ r : ObjectRef, @Lives _ _ S' h' r →
      @Lives _ _ S h r ∧ h'.object r = h.object r ∨
        (h'.Ordered → @Instance.Regular S' h' (h'.object r)))
    (classes : ∀ c : ClassRef, @Lives _ _ S' h' c →
      @Lives _ _ S h c ∧ h'.klass c = h.klass c ∨ @Class.Regular S' h' c (h'.klass c))
    (scopes : ∀ s : ScopeRef, @Lives _ _ S' h' s →
      @Lives _ _ S h s ∧ h'.scope s = h.scope s ∨ @Scope.Regular S' h' s (h'.scope s))
    (housed : h'.Housed) : @Regular S' h' := by
  have ho := hr.ordered
  obtain ⟨-, oldLists, oldTables, oldObjects, oldClasses, oldScopes, -, core⟩ := hr
  have hclasses : ∀ c : ClassRef, @Lives _ _ S' h' c → @Class.Regular S' h' c (h'.klass c) := by
    intro c hc
    rcases classes c hc with ⟨hlives, hsame⟩ | hk
    · rw [hsame]
      exact (oldClasses c hlives).later e
    · exact hk
  have ho' : h'.Ordered := ordered_of_older fun c hc => (hclasses c hc).older
  refine ⟨reserved, fun r => ?_, fun r x hx => ?_, fun r hlives => ?_, hclasses,
    fun s hlives => ?_, housed, core.trans e.enlarges⟩
  · rcases lists r with hsame | hnew
    · rw [hsame]
      exact (oldLists r).later e
    · exact hnew
  · rcases tables r with hsame | hnew
    · exact (oldTables r x (hsame ▸ hx)).later e fun hd _ hc => ⟨r, hd, x, hx, hc⟩
    · exact hnew x hx
  · rcases objects r hlives with ⟨hold, hsame⟩ | hnew
    · rw [hsame]
      exact (oldObjects r hold).later e ho ho'
    · exact hnew ho'
  · rcases scopes s hlives with ⟨hold, hsame⟩ | hnew
    · rw [hsame]
      exact (oldScopes s hold).later e
    · exact hnew

/-! ## New classes and modules -/

/-- A class or module that is to be made under a name of a namespace. -/
def draftClass (namespace_ : ClassRef) (name : String) (isModule : Bool)
    (superclass : Option ClassRef) : Class :=
  { name, isModule
    superclass := if isModule then none else some (superclass.getD Core.object)
    parent := if namespace_ == Core.object then none else some namespace_ }

/-- A class or module made under a name of a namespace. -/
def withClass (h : Heap) (namespace_ : ClassRef) (name : String) (isModule : Bool)
    (superclass : Option ClassRef) : Heap :=
  (h.newClass (draftClass namespace_ name isModule superclass)).2.setConstant namespace_ name
    (.klass ⟨h.classes.size⟩)

section Place

variable {namespace_ : ClassRef} {name : String} {isModule : Bool} {superclass : Option ClassRef}

theorem getD_parent_draftClass :
    (draftClass namespace_ name isModule superclass).parent.getD Core.object = namespace_ := by
  unfold draftClass
  dsimp only
  split
  · next heq => exact (eq_of_beq heq).symm
  · rfl

theorem klass_withClass (hns : namespace_.index < h.classes.size) :
    (h.withClass namespace_ name isModule superclass).klass ⟨h.classes.size⟩ =
      draftClass namespace_ name isModule superclass :=
  (Store.get_modify_of_ne (Nat.ne_of_gt hns) _).trans (Store.get_push_size ..)

theorem home_withClass (hns : namespace_.index < h.classes.size) :
    (h.withClass namespace_ name isModule superclass).home ⟨h.classes.size⟩ = namespace_ := by
  rw [home, klass_withClass hns, getD_parent_draftClass]

theorem klass_withClass_namespace (hns : namespace_.index < h.classes.size) :
    (h.withClass namespace_ name isModule superclass).klass namespace_ =
      { h.klass namespace_ with
        constants := (h.klass namespace_).constants.insert name (.klass ⟨h.classes.size⟩) } := by
  have hlives : namespace_.index <
      (h.classes.push (draftClass namespace_ name isModule superclass)).size :=
    Nat.lt_trans hns (Store.size_lt_push _ _)
  refine (Store.get_modify_self hlives _).trans ?_
  rw [Store.get_push_of_lt hns]
  rfl

/-- A class of the heap with a new one is that one, the namespace, or as it was. -/
theorem withClass_cases {c : ClassRef}
    (hc : c.index < (h.withClass namespace_ name isModule superclass).classes.size) :
    c = ⟨h.classes.size⟩ ∨ c.index < h.classes.size ∧
      (c = namespace_ ∨ (h.withClass namespace_ name isModule superclass).klass c = h.klass c) := by
  obtain ⟨i⟩ := c
  have hlt : i < h.classes.size + 1 := by
    simpa [withClass, setConstant, modifyClass, newClass] using hc
  rcases Nat.lt_or_eq_of_le (Nat.le_of_lt_succ hlt) with hi | rfl
  · refine .inr ⟨hi, ?_⟩
    by_cases hns : i = namespace_.index
    · exact .inl (by rw [hns])
    · exact .inr ((Store.get_modify_of_ne hns _).trans (Store.get_push_of_lt hi _))
  · exact .inl rfl

end Place

variable [S : Secrecy]

theorem Regular.extend (hr : h.Regular) (e : h.Extends h')
    (lists : ∀ r : ListRef, h'.list r = h.list r ∨ Lives h' (h'.list r))
    (tables : ∀ r : TableRef, h'.table r = h.table r)
    (objects : ∀ r : ObjectRef, Lives h' r →
      Lives h r ∧ h'.object r = h.object r ∨ (h'.Ordered → (h'.object r).Regular h'))
    (classes : ∀ c : ClassRef, Lives h' c →
      Lives h c ∧ h'.klass c = h.klass c ∨ (h'.klass c).Regular h' c)
    (scopes : ∀ s : ScopeRef, Lives h' s →
      Lives h s ∧ h'.scope s = h.scope s ∨ (h'.scope s).Regular h' s)
    (old : ∀ c : ClassRef, Lives h' c → (h'.klass c).isSingleton = false → Lives h c) :
    h'.Regular :=
  hr.extendFrom e (fun c hc => Nat.lt_of_lt_of_le (hr.reserved c hc) e.enlarges.texts) lists
    (fun r => .inl (tables r)) objects classes scopes (hr.housed_of_enlarges e.enlarges old)

/-! ## Changes that keep a heap regular -/

/-- From a regular heap the change leads to one that extends it and is regular. -/
def Keeps (h h' : Heap) : Prop := h.Regular → h.Extends h' ∧ h'.Regular

theorem Keeps.refl (h : Heap) : h.Keeps h := fun hr => ⟨.refl h, hr⟩

theorem Keeps.trans {h'' : Heap} (k : h.Keeps h') (k' : h'.Keeps h'') : h.Keeps h'' := by
  intro hr
  obtain ⟨e, hr'⟩ := k hr
  obtain ⟨e', hr''⟩ := k' hr'
  exact ⟨e.trans e', hr''⟩

theorem lives_newText (hr : h.Regular) (s : String) :
    Lives (h.newText s).2 (⟨h.texts.size⟩ : TextRef) := by
  refine ⟨Store.size_lt_push h.texts s, ?_⟩
  rintro (hres | ⟨r, hd, x, hx, hkey⟩)
  · exact Nat.lt_irrefl _ (hr.reserved _ hres)
  · have hshown : h.Shows (.str ⟨h.texts.size⟩) := hkey ▸ (hr.tables r x hx).key
    exact Nat.lt_irrefl _ hshown.1

theorem keeps_newText (s : String) : h.Keeps (h.newText s).2 := by
  have e : h.Extends (h.newText s).2 :=
    ⟨{ Enlarges.refl h with texts := by simp [newText] }, rfl, fun _ _ hc => hc,
      fun c hc hhid => ⟨hhid, Store.get_push_of_lt hc s⟩⟩
  exact fun hr => ⟨e, hr.extend e (fun _ => .inl rfl) (fun _ => rfl)
    (fun _ hl => .inl ⟨hl, rfl⟩) (fun _ hl => .inl ⟨hl, rfl⟩) (fun _ hl => .inl ⟨hl, rfl⟩)
    fun _ hl _ => hl⟩

theorem keeps_newList {items : Array Value} (hi : Lives h items) :
    h.Keeps (h.newList items).2 := by
  have e : h.Extends (h.newList items).2 :=
    .of_enlarges { Enlarges.refl h with lists := by simp [newList] } rfl rfl
  refine fun hr => ⟨e, hr.extend e (fun r => ?_) (fun _ => rfl)
    (fun _ hl => .inl ⟨hl, rfl⟩) (fun _ hl => .inl ⟨hl, rfl⟩) (fun _ hl => .inl ⟨hl, rfl⟩)
    fun _ hl _ => hl⟩
  rcases Store.get_push_cases h.lists items r.index with hsame | ⟨-, hnew⟩
  · exact .inl hsame
  · refine .inr ?_
    have hlist : (h.newList items).2.list r = items := hnew
    rw [hlist]
    exact hi.later e

theorem keeps_newScope {s : Scope} (hs : Lives h s) : h.Keeps (h.newScope s).2 := by
  have e : h.Extends (h.newScope s).2 :=
    .of_enlarges { Enlarges.refl h with
      scopes := by simp [newScope]
      growsScope := fun _ hr => Store.push_related Scope.Grows.refl hr s } rfl rfl
  refine fun hr => ⟨e, hr.extend e (fun _ => .inl rfl) (fun _ => rfl)
    (fun _ hl => .inl ⟨hl, rfl⟩) (fun _ hl => .inl ⟨hl, rfl⟩) (fun r hl => ?_) fun _ hl _ => hl⟩
  rcases Store.push_cases hl with ⟨hold, hsame⟩ | ⟨hi, hnew⟩
  · exact .inl ⟨hold, hsame⟩
  · refine .inr ?_
    have hscope : (h.newScope s).2.scope r = s := hnew
    rw [hscope]
    exact ⟨hs.later e, fun p hp => hi ▸ hs.2.1 p hp⟩

theorem keeps_newObject {o : Instance} (hobj : o.Regular h) :
    h.Keeps (h.newObject o).2 := by
  have e : h.Extends (h.newObject o).2 :=
    .of_enlarges { Enlarges.refl h with
      objects := by simp [newObject]
      growsObject := fun _ hr => Store.push_related Instance.Grows.refl hr o } rfl rfl
  refine fun hr => ⟨e, hr.extend e (fun _ => .inl rfl) (fun _ => rfl) (fun r hl => ?_)
    (fun _ hl => .inl ⟨hl, rfl⟩) (fun _ hl => .inl ⟨hl, rfl⟩) fun _ hl _ => hl⟩
  rcases Store.push_cases hl with ⟨hold, hsame⟩ | ⟨-, hnew⟩
  · exact .inl ⟨hold, hsame⟩
  · refine .inr fun ho' => ?_
    have hobject : (h.newObject o).2.object r = o := hnew
    rw [hobject]
    exact hobj.later e hr.ordered ho'

theorem extends_newClass (k : Class) : h.Extends (h.newClass k).2 :=
  .of_enlarges { Enlarges.refl h with
    classes := by simp [newClass]
    grows := fun _ hc => Store.push_related Class.Grows.refl hc k } rfl rfl

theorem keeps_newSingleton {k : Class} (hk : k.Regular h ⟨h.classes.size⟩)
    (hsingleton : k.isSingleton = true) : h.Keeps (h.newClass k).2 := by
  have e : h.Extends (h.newClass k).2 := extends_newClass k
  refine fun hr => ⟨e, hr.extend e (fun _ => .inl rfl) (fun _ => rfl)
    (fun _ hl => .inl ⟨hl, rfl⟩) (fun c hl => ?_) (fun _ hl => .inl ⟨hl, rfl⟩) fun c hl hord => ?_⟩
  · rcases Store.push_cases hl with ⟨hold, hsame⟩ | ⟨hi, hnew⟩
    · exact .inl ⟨hold, hsame⟩
    · refine .inr ?_
      have hclass : (h.newClass k).2.klass c = k := hnew
      have hc : c = ⟨h.classes.size⟩ := by cases c; exact congrArg ClassRef.mk hi
      rw [hclass, hc]
      exact hk.later e
  · rcases Store.push_cases hl with ⟨hold, -⟩ | ⟨-, hnew⟩
    · exact hold
    · have hclass : (h.newClass k).2.klass c = k := hnew
      rw [hclass, hsingleton] at hord
      cases hord

/-! Cells that are changed in place. -/

theorem keeps_modifyText {r : TextRef} (f : String → String) (hlives : Lives h r) :
    h.Keeps (h.modifyText r f) := by
  have e : h.Extends (h.modifyText r f) := by
    refine ⟨{ Enlarges.refl h with texts := by simp [modifyText] }, rfl, fun _ _ hc => hc,
      fun c _ hhid => ⟨hhid, ?_⟩⟩
    have hne : c.index ≠ r.index := by
      intro heq
      obtain rfl : c = r := by cases c; cases r; exact congrArg TextRef.mk heq
      exact hlives.2 hhid
    exact Store.get_modify_of_ne hne f
  exact fun hr => ⟨e, hr.extend e (fun _ => .inl rfl) (fun _ => rfl)
    (fun _ hl => .inl ⟨hl, rfl⟩) (fun _ hl => .inl ⟨hl, rfl⟩) (fun _ hl => .inl ⟨hl, rfl⟩)
    fun _ hl _ => hl⟩

theorem keeps_modifyList {r : ListRef} {f : Array Value → Array Value}
    (hf : Lives h (f (h.list r))) : h.Keeps (h.modifyList r f) := by
  have e : h.Extends (h.modifyList r f) :=
    .of_enlarges { Enlarges.refl h with lists := by simp [modifyList] } rfl rfl
  refine fun hr => ⟨e, hr.extend e (fun r' => ?_) (fun _ => rfl)
    (fun _ hl => .inl ⟨hl, rfl⟩) (fun _ hl => .inl ⟨hl, rfl⟩) (fun _ hl => .inl ⟨hl, rfl⟩)
    fun _ hl _ => hl⟩
  rcases Store.get_modify_cases h.lists r.index f r'.index with hsame | ⟨hi, hnew⟩
  · exact .inl hsame
  · refine .inr ?_
    obtain ⟨i⟩ := r'
    obtain rfl : i = r.index := hi
    have hlist : (h.modifyList r f).list r = f (h.list r) := hnew
    exact hlist ▸ hf.later e

theorem keeps_modifyScope {r : ScopeRef} {f : Scope → Scope} (hgrows : ∀ k : Scope, k.Grows (f k))
    (hf : Lives h (h.scope r) → Lives h (f (h.scope r))) : h.Keeps (h.modifyScope r f) := by
  have e : h.Extends (h.modifyScope r f) :=
    .of_enlarges { Enlarges.refl h with
      scopes := by simp [modifyScope]
      growsScope := fun _ _ => Store.modify_related Scope.Grows.refl hgrows .. } rfl rfl
  refine fun hr => ⟨e, hr.extend e (fun _ => .inl rfl) (fun _ => rfl)
    (fun _ hl => .inl ⟨hl, rfl⟩) (fun _ hl => .inl ⟨hl, rfl⟩) (fun r' hl => ?_) fun _ hl _ => hl⟩
  rcases Store.modify_cases hl with hsame | ⟨hold, hi, hnew⟩
  · exact .inl hsame
  · refine .inr ?_
    obtain ⟨i⟩ := r'
    obtain rfl : i = r.index := hi
    have hscope : (h.modifyScope r f).scope r = f (h.scope r) := hnew
    have hregular := hr.scopes r hold
    refine hscope ▸ ⟨(hf hregular.lives).later e, fun p hp => hregular.older p ?_⟩
    exact (hgrows (h.scope r)).parent ▸ hp

theorem keeps_modifyObject {r : ObjectRef} {f : Instance → Instance}
    (hgrows : ∀ o : Instance, o.Grows (f o))
    (hf : (h.object r).Regular h → (f (h.object r)).Regular h) : h.Keeps (h.modifyObject r f) := by
  have e : h.Extends (h.modifyObject r f) :=
    .of_enlarges { Enlarges.refl h with
      objects := by simp [modifyObject]
      growsObject := fun _ _ => Store.modify_related Instance.Grows.refl hgrows .. } rfl rfl
  refine fun hr => ⟨e, hr.extend e (fun _ => .inl rfl) (fun _ => rfl) (fun r' hl => ?_)
    (fun _ hl => .inl ⟨hl, rfl⟩) (fun _ hl => .inl ⟨hl, rfl⟩) fun _ hl _ => hl⟩
  rcases Store.modify_cases hl with hsame | ⟨hold, hi, hnew⟩
  · exact .inl hsame
  · refine .inr fun ho' => ?_
    obtain ⟨i⟩ := r'
    obtain rfl : i = r.index := hi
    have hobject : (h.modifyObject r f).object r = f (h.object r) := hnew
    exact hobject ▸ (hf (hr.objects r hold)).later e hr.ordered ho'

theorem extends_modifyClass {c : ClassRef} {f : Class → Class}
    (hgrows : ∀ k : Class, k.Grows (f k)) : h.Extends (h.modifyClass c f) :=
  .of_enlarges { Enlarges.refl h with
    classes := by simp [modifyClass]
    grows := fun _ _ => Store.modify_related Class.Grows.refl hgrows .. } rfl rfl

theorem keeps_modifyClass {c : ClassRef} {f : Class → Class}
    (hgrows : ∀ k : Class, k.Grows (f k))
    (hf : (h.klass c).Regular h c → (f (h.klass c)).Regular h c) : h.Keeps (h.modifyClass c f) := by
  have e : h.Extends (h.modifyClass c f) := extends_modifyClass hgrows
  refine fun hr => ⟨e, hr.extend e (fun _ => .inl rfl) (fun _ => rfl)
    (fun _ hl => .inl ⟨hl, rfl⟩) (fun c' hl => ?_) (fun _ hl => .inl ⟨hl, rfl⟩)
    fun _ hl _ => Nat.lt_of_lt_of_eq hl (Store.size_modify h.classes c.index f)⟩
  rcases Store.modify_cases hl with hsame | ⟨hold, hi, hnew⟩
  · exact .inl hsame
  · refine .inr ?_
    obtain ⟨i⟩ := c'
    obtain rfl : i = c.index := hi
    have hclass : (h.modifyClass c f).klass c = f (h.klass c) := hnew
    exact hclass ▸ (hf (hr.classes c hold)).later e

/-! ## The changes that programs make -/

theorem keeps_defineLocal {s : ScopeRef} {name : String} {v : Value} (hv : Lives h v) :
    h.Keeps (h.defineLocal s name v) :=
  keeps_modifyScope (fun k => ⟨rfl, OrderedMap.keys_subset_insert k.locals name v⟩)
    fun hs => ⟨OrderedMap.lives_insert hs.1 hv, hs.2⟩

theorem keeps_setObjectVariable {r : ObjectRef} {name : String} {v : Value} (hv : Lives h v) :
    h.Keeps (h.setObjectVariable r name v) :=
  keeps_modifyObject (fun o => ⟨rfl, rfl, OrderedMap.keys_subset_insert o.slots name v⟩)
    fun ho => { ho with slots := OrderedMap.lives_insert ho.slots hv }

theorem extends_setConstant (c : ClassRef) (name : String) (v : Value) :
    h.Extends (h.setConstant c name v) :=
  extends_modifyClass fun k => .insertConstant k name v

theorem keeps_setConstant {c : ClassRef} {name : String} {v : Value} (hv : Lives h v) :
    h.Keeps (h.setConstant c name v) :=
  keeps_modifyClass (fun k => .insertConstant k name v) fun hk =>
    { hk with constants := OrderedMap.lives_insert hk.constants hv }

theorem keeps_setClassVariable {c : ClassRef} {name : String} {v : Value} (hv : Lives h v) :
    h.Keeps (h.setClassVariable c name v) :=
  keeps_modifyClass (fun k => { Class.Grows.refl k with
    slots := OrderedMap.keys_subset_insert k.slots name v }) fun hk =>
    { hk with slots := OrderedMap.lives_insert hk.slots hv }

theorem keeps_setMethod {c : ClassRef} {name : String} {m : Callable} (hm : Lives h m) :
    h.Keeps (h.setMethod c name m) := by
  refine keeps_modifyClass (fun k => { Class.Grows.refl k with methods := ?_ }) fun hk =>
    { hk with methods := ?_ }
  · exact OrderedMap.keys_subset_insert k.methods name m
  intro name' m' hm'
  by_cases hname : name' = name
  · subst hname
    rw [OrderedMap.get?_insert_self] at hm'
    cases hm'
    refine ⟨hm.1, ?_⟩
    rintro b rfl
    cases hm.2
  · rw [OrderedMap.get?_insert_of_ne _ hname] at hm'
    exact hk.methods name' m' hm'

theorem regular_new {k : Class} (hsuper : Lives h k.superclass)
    (hplace : k.isSingleton = false →
      Lives h (k.superclass.map Value.klass) ∧ k.isModule = k.superclass.isNone)
    (hinside : ∀ p, k.parent = some p → Lives h (.klass p : Value) ∧ p ≠ Core.object)
    (hnamed : S.fromText → k.isSingleton = false → IsPlainName k.name)
    (hm : k.methods = .empty) (hcs : k.constants = .empty) (hsl : k.slots = .empty)
    (hs : k.singleton = none) :
    k.Regular h ⟨h.classes.size⟩ where
  older := hsuper
  inherits := fun hord s hs => (hplace hord).1 (.klass s) (by rw [hs]; rfl)
  rooted := fun hord _ => (hplace hord).2
  inside := fun p hp => ⟨(hinside p hp).1.1, hinside p hp⟩
  named := hnamed
  methods := by simp [hm]
  constants := by rw [hcs]; exact OrderedMap.lives_empty
  slots := by rw [hsl]; exact OrderedMap.lives_empty
  singleton := by simp [hs]

theorem lives_newClass (k : Class) : Lives (h.newClass k).2 (⟨h.classes.size⟩ : ClassRef) := by
  change h.classes.size < (h.classes.push k).size
  rw [Store.size_push]
  exact Nat.lt_succ_self _

theorem lives_newClass_value {k : Class} (hord : k.isSingleton = false) :
    Lives (h.newClass k).2 (.klass ⟨h.classes.size⟩ : Value) :=
  ⟨lives_newClass k, (congrArg Class.isSingleton (Store.get_push_size h.classes k)).trans hord⟩

theorem Regular.lives_coreValue (hr : h.Regular) {c : ClassRef}
    (hc : c.index < Core.heap.classes.size) : Lives h (.klass c : Value) := by
  exact ⟨hr.lives_core hc, (hr.core.grows c hc).isSingleton.trans (Core.ordinary c.index hc)⟩

theorem Regular.lives_main (hr : h.Regular) : Lives h Core.main :=
  Nat.lt_of_lt_of_le (Nat.zero_lt_one : 0 < Core.heap.objects.size) hr.core.objects

theorem Regular.lives_root (hr : h.Regular) : Lives h Core.root :=
  Nat.lt_of_lt_of_le (Nat.zero_lt_one : 0 < Core.heap.scopes.size) hr.core.scopes

/-! ### New classes and modules -/

section WithClass

variable {namespace_ : ClassRef} {name : String} {isModule : Bool} {superclass : Option ClassRef}

theorem regular_draftClass (hr : h.Regular) (hns : Lives h (.klass namespace_ : Value))
    (hname : S.fromText → IsPlainName name) (hsuper : Lives h (superclass.map Value.klass)) :
    (draftClass namespace_ name isModule superclass).Regular h ⟨h.classes.size⟩ := by
  have hroot : Lives h (.klass (superclass.getD Core.object) : Value) := by
    cases superclass with
    | none => exact hr.lives_coreValue (by decide)
    | some s => exact hsuper (.klass s) rfl
  refine regular_new ?_ (fun _ => ?_) (fun p hp => ?_) (fun ht _ => hname ht) rfl rfl rfl rfl
  · cases isModule with
    | true => exact lives_none
    | false => exact lives_some.2 hroot.1
  · cases isModule with
    | true => exact ⟨lives_none, rfl⟩
    | false => exact ⟨lives_some.2 hroot, rfl⟩
  · unfold draftClass at hp
    dsimp only at hp
    split at hp
    · cases hp
    · next hne =>
      cases hp
      exact ⟨hns, fun heq => hne (beq_iff_eq.2 heq)⟩

theorem extends_withClass : h.Extends (h.withClass namespace_ name isModule superclass) :=
  (extends_newClass _).trans (extends_setConstant ..)

theorem lives_withClass :
    Lives (h.withClass namespace_ name isModule superclass) (.klass ⟨h.classes.size⟩ : Value) := by
  refine (lives_newClass_value ?_).later (extends_setConstant namespace_ name _)
  rfl

/-- A name that is not taken becomes the name of one class. -/
theorem housed_withClass (hr : h.Regular) (hns : Lives h (.klass namespace_ : Value))
    (hfree : (h.klass namespace_).constants.get? name = none) :
    (h.withClass namespace_ name isModule superclass).Housed := by
  have g : h.Enlarges (h.withClass namespace_ name isModule superclass) :=
    extends_withClass.enlarges
  have hnew : (h.withClass namespace_ name isModule superclass).klass ⟨h.classes.size⟩ =
      draftClass namespace_ name isModule superclass := klass_withClass hns.1
  have hhome : (h.withClass namespace_ name isModule superclass).home ⟨h.classes.size⟩ =
      namespace_ := home_withClass hns.1
  -- No class that was there before has the name and stands in the namespace.
  have hother : ∀ c : ClassRef, c.index < h.classes.size →
      ((h.withClass namespace_ name isModule superclass).klass c).isSingleton = false →
      ((h.withClass namespace_ name isModule superclass).klass c).name = name →
      (h.withClass namespace_ name isModule superclass).home c ≠ namespace_ := by
    intro c hc hord hname hsame
    rw [(g.grows c hc).isSingleton] at hord
    rw [(g.grows c hc).name] at hname
    rw [g.home hc] at hsame
    have htaken := hr.housed.taken c hc hord
    rw [hname, hsame] at htaken
    exact OrderedMap.get?_eq_none_iff.1 hfree htaken
  refine ⟨fun c hc hord => ?_, fun c c' hc hc' hord hord' hname hsame => ?_⟩
  · rcases withClass_cases hc with rfl | ⟨hold, -⟩
    · rw [hhome, hnew, klass_withClass_namespace hns.1]
      exact OrderedMap.mem_keys_insert_self ..
    · exact hr.taken_later g hold hord
  · rcases withClass_cases hc with rfl | ⟨hold, -⟩ <;>
      rcases withClass_cases hc' with rfl | ⟨hold', -⟩
    · rfl
    · rw [hnew] at hname
      exact absurd (hsame.symm.trans hhome) (hother c' hold' hord' hname.symm)
    · rw [hnew] at hname
      exact absurd (hsame.trans hhome) (hother c hold hord hname)
    · exact hr.alone_later g hold hold' hord hord' hname hsame

theorem keeps_withClass (hns : Lives h (.klass namespace_ : Value))
    (hname : S.fromText → IsPlainName name)
    (hfree : (h.klass namespace_).constants.get? name = none)
    (hsuper : Lives h (superclass.map Value.klass)) :
    h.Keeps (h.withClass namespace_ name isModule superclass) := by
  intro hr
  have e : h.Extends (h.withClass namespace_ name isModule superclass) := extends_withClass
  refine ⟨e, hr.extendFrom e (fun c hc => Nat.lt_of_lt_of_le (hr.reserved c hc) e.enlarges.texts)
    (fun _ => .inl rfl) (fun _ => .inl rfl) (fun _ hl => .inl ⟨hl, rfl⟩) (fun c hl => ?_)
    (fun _ hl => .inl ⟨hl, rfl⟩) (housed_withClass hr hns hfree)⟩
  rcases withClass_cases hl with rfl | ⟨hold, rfl | hsame⟩
  · rw [klass_withClass hns.1]
    exact .inr ((regular_draftClass hr hns hname hsuper).later e)
  · rw [klass_withClass_namespace hns.1]
    have hregular := (hr.classes c hold).later e
    have hvalue : Lives (h.withClass c name isModule superclass)
        (.klass ⟨h.classes.size⟩ : Value) := lives_withClass
    exact .inr { hregular with constants := OrderedMap.lives_insert hregular.constants hvalue }
  · exact .inl ⟨hold, hsame⟩

end WithClass

theorem keeps_classSingleton {c : ClassRef} : h.Keeps (h.classSingleton c).2 := by
  intro hr
  unfold classSingleton
  split
  · exact Keeps.refl h hr
  · have hnone : Lives h (none : Option ClassRef) := fun _ hs => by cases hs
    refine (keeps_newSingleton (regular_new hnone (fun hord => by cases hord)
        (fun _ hp => by cases hp) (fun _ hord => by cases hord) rfl rfl rfl rfl) rfl).trans
      (keeps_modifyClass (fun k => { Class.Grows.refl k with })
        fun hk => { hk with singleton := ?_ }) hr
    intro s hs
    cases hs
    exact ⟨lives_newClass _, hr.core.classes⟩

theorem keeps_objectSingleton {r : ObjectRef} (hlives : Lives h r) :
    h.Keeps (h.objectSingleton r).2 := by
  intro hr
  unfold objectSingleton
  split
  · exact Keeps.refl h hr
  · have hsuper : Lives h (some (h.object r).klass) := fun _ hs => by
      cases hs
      exact (hr.objects r hlives).klass.1
    refine (keeps_newSingleton (regular_new hsuper (fun hord => by cases hord)
        (fun _ hp => by cases hp) (fun _ hord => by cases hord) rfl rfl rfl rfl) rfl).trans
      (keeps_modifyObject (fun o => { Instance.Grows.refl o with })
        fun ho => { ho with singleton := ?_ }) hr
    intro s hs
    cases hs
    exact ⟨lives_newClass _, hr.core.classes,
      congrArg Class.superclass (Store.get_push_size h.classes _)⟩

theorem keeps_newInstance {c : ClassRef} {base : Option Value} (hc : Lives h (.klass c : Value))
    (hbacks : Creation.Backs ((h.ancestors c).findSome? Creation.decides) base)
    (hbase : Lives h base) : h.Keeps (h.newObject { klass := c, base }).2 :=
  keeps_newObject ⟨hc, OrderedMap.lives_empty, fun _ hs => (by cases hs), hbacks, hbase⟩

end Heap

/-! ## The heap of a new session -/

namespace Core

/-- Each core class has the built-in methods that it owns. -/
theorem methods_owned : ∀ i < heap.classes.size,
    (heap.klass ⟨i⟩).methods.entries.all (fun e =>
      match e.2 with
      | .builtin b => b.owner == ⟨i⟩
      | _ => false) = true := by decide

theorem constants_core : ∀ i < heap.classes.size,
    (heap.klass ⟨i⟩).constants.entries.all (fun e =>
      match e.2 with
      | .klass c => decide (c.index < heap.classes.size)
      | .float _ => true
      | _ => false) = true := by decide

theorem rooted : ∀ i < heap.classes.size, (⟨i⟩ : ClassRef) ≠ object →
    (heap.klass ⟨i⟩).isModule = (heap.klass ⟨i⟩).superclass.isNone := by decide

theorem bare_core : ∀ i < heap.classes.size,
    ((heap.klass ⟨i⟩).slots.isEmpty && (heap.klass ⟨i⟩).singleton.isNone) = true := by decide

theorem outermost : ∀ i < heap.classes.size, (heap.klass ⟨i⟩).parent = none := by decide

theorem plainNames : ∀ i < heap.classes.size, ':' ∉ (heap.klass ⟨i⟩).name.toList := by
  decide +kernel

theorem housed : heap.Housed where
  taken := by
    have hall : ∀ i < heap.classes.size,
        (heap.klass ⟨i⟩).name ∈ (heap.klass object).constants.keys := by decide +kernel
    intro c hc _
    rw [Heap.home, outermost c.index hc]
    exact hall c.index hc
  alone := by
    have hall : ∀ i < heap.classes.size, ∀ j < heap.classes.size,
        (heap.klass ⟨i⟩).name = (heap.klass ⟨j⟩).name → i = j := by decide +kernel
    intro c c' hc hc' _ _ hname _
    obtain ⟨i⟩ := c
    obtain ⟨j⟩ := c'
    exact congrArg ClassRef.mk (hall i hc j hc' hname)

variable [Secrecy]

theorem class_regular {c : ClassRef} (hc : Lives heap c) : (heap.klass c).Regular heap c where
  older := fun s => Core.ordered c s
  inherits := fun _ s hs =>
    have hlt : s.index < heap.classes.size := Nat.lt_trans (Core.ordered c s hs) hc
    ⟨hlt, ordinary s.index hlt⟩
  rooted := fun _ => rooted c.index hc
  inside := fun p hp => by
    rw [outermost c.index hc] at hp
    cases hp
  named := fun _ _ => plainNames c.index hc
  methods := by
    intro name m hm
    obtain ⟨name', hmem⟩ := OrderedMap.mem_of_find hm
    have howned := List.all_eq_true.1 (methods_owned c.index hc) _ hmem
    cases m with
    | builtin b =>
      refine ⟨trivial, fun b' hb => ?_⟩
      cases hb
      exact eq_of_beq howned
    | method | block | native => cases howned
  constants := by
    intro e he
    have hcore := List.all_eq_true.1 (constants_core c.index hc) e he
    split at hcore
    · next k hk =>
      have hlt : k.index < heap.classes.size := of_decide_eq_true hcore
      exact hk ▸ ⟨hlt, ordinary k.index hlt⟩
    · next x hx =>
      rw [hx]
      trivial
    · cases hcore
  slots := by
    have hbare := bare_core c.index hc
    simp only [Bool.and_eq_true, OrderedMap.isEmpty, List.isEmpty_iff] at hbare
    intro e he
    rw [hbare.1] at he
    cases he
  singleton := by
    have hbare := bare_core c.index hc
    simp only [Bool.and_eq_true, Option.isNone_iff_eq_none] at hbare
    intro s hs
    rw [hbare.2] at hs
    cases hs

/-- The heap of a new session is regular, as it has no texts that could be kept from programs. -/
theorem regular_of_unreserved (hnone : ∀ c, ¬Secrecy.reserved c) : heap.Regular where
  reserved := fun c hc => absurd hc (hnone c)
  lists := fun r => by
    have hempty : heap.list r = [].toArray := Store.get_of_size_le (Nat.zero_le _)
    rw [hempty, lives_toArray]
    exact lives_nil
  tables := fun r e he => by
    have hempty : heap.table r = .empty := Store.get_of_size_le (Nat.zero_le _)
    rw [hempty] at he
    cases he
  objects := by
    rintro ⟨i⟩ hi
    obtain rfl : i = 0 := Nat.lt_one_iff.1 hi
    have hklass : (0 : Nat) < heap.classes.size := by decide
    exact ⟨⟨hklass, ordinary 0 hklass⟩, OrderedMap.lives_empty, fun _ hs => (by cases hs),
      Creation.Backs.nothing, lives_none⟩
  classes := fun c hc => class_regular hc
  scopes := by
    rintro ⟨i⟩ hi
    obtain rfl : i = 0 := Nat.lt_one_iff.1 hi
    have hmain : (0 : Nat) < heap.objects.size := by decide
    have hobject : (0 : Nat) < heap.classes.size := by decide
    refine ⟨⟨OrderedMap.lives_empty, lives_none, hmain, ?_, lives_none⟩, fun p hp => by cases hp⟩
    exact lives_some.2 ⟨hobject, ordinary 0 hobject⟩
  housed := housed
  core := .refl heap

end Core

theorem Core.regular : heap.Regular := regular_of_unreserved fun _ hc => hc

end Spinel
