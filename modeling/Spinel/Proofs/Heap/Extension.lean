import Spinel.Dispatch

/-!
# Heaps that grow

Cells are added to a heap and none is taken away. Classes, objects and scopes keep their places in
the graph that they make up, and what is defined in them stays defined (`Heap.Enlarges`). Some texts
may be kept from programs: the keys of certain tables, and what is about to become a key
(`Secrecy`). A heap extends another (`Heap.Extends`) if it is larger, keeps none of the old texts
from programs that was not kept from them before, and has changed none that it does keep.
-/

namespace Spinel

/-! ## Cells -/

namespace Store

variable {α : Type}

theorem size_lt_push (s : Store α) (a : α) : s.size < (s.push a).size := by
  rw [size_push]
  exact Nat.lt_succ_self _

variable [Inhabited α]

theorem get_of_size_le {s : Store α} {i : Nat} (hi : s.size ≤ i) : s.get i = default := by
  have hi' : s.cells.size ≤ i := hi
  simp [get, hi']

theorem get_push_cases (s : Store α) (a : α) (i : Nat) :
    (s.push a).get i = s.get i ∨ i = s.size ∧ (s.push a).get i = a := by
  rcases Nat.lt_trichotomy i s.size with hi | rfl | hi
  · exact .inl (get_push_of_lt hi a)
  · exact .inr ⟨rfl, get_push_size s a⟩
  · left
    rw [get_of_size_le (Nat.le_of_lt hi), get_of_size_le (by rw [size_push]; exact hi)]

theorem get_modify_cases (s : Store α) (i : Nat) (f : α → α) (j : Nat) :
    (s.modify i f).get j = s.get j ∨ j = i ∧ (s.modify i f).get j = f (s.get j) := by
  by_cases hij : j = i
  · subst hij
    by_cases hj : j < s.size
    · exact .inr ⟨rfl, get_modify_self hj f⟩
    · left
      rw [get_of_size_le (Nat.le_of_not_lt hj),
        get_of_size_le (by rw [size_modify]; exact Nat.le_of_not_lt hj)]
  · exact .inl (get_modify_of_ne hij f)

theorem push_cases {s : Store α} {a : α} {i : Nat} (hi : i < (s.push a).size) :
    i < s.size ∧ (s.push a).get i = s.get i ∨ i = s.size ∧ (s.push a).get i = a := by
  rw [size_push] at hi
  rcases Nat.lt_or_eq_of_le (Nat.le_of_lt_succ hi) with hlt | rfl
  · exact .inl ⟨hlt, get_push_of_lt hlt a⟩
  · exact .inr ⟨rfl, get_push_size s a⟩

theorem modify_cases {s : Store α} {i j : Nat} {f : α → α} (hj : j < (s.modify i f).size) :
    j < s.size ∧ (s.modify i f).get j = s.get j ∨
      j < s.size ∧ j = i ∧ (s.modify i f).get j = f (s.get j) := by
  rw [size_modify] at hj
  rcases get_modify_cases s i f j with hsame | hnew
  · exact .inl ⟨hj, hsame⟩
  · exact .inr ⟨hj, hnew⟩

/-- What holds between a cell and itself holds between it and the same cell when one was added. -/
theorem push_related {R : α → α → Prop} (hrefl : ∀ a, R a a) {s : Store α} {i : Nat}
    (hi : i < s.size) (a : α) : R (s.get i) ((s.push a).get i) := by
  rw [get_push_of_lt hi]
  exact hrefl _

/-- What holds between a cell and itself and what is made of it holds when a cell is changed. -/
theorem modify_related {R : α → α → Prop} (hrefl : ∀ a, R a a) {f : α → α} (hf : ∀ a, R a (f a))
    (s : Store α) (i j : Nat) : R (s.get j) ((s.modify i f).get j) := by
  rcases get_modify_cases s i f j with hsame | ⟨-, hnew⟩
  · rw [hsame]
    exact hrefl _
  · rw [hnew]
    exact hf _

end Store

/-! ## Larger heaps -/

/-- A class stays the same but for what is defined in it, and nothing in it is undefined. -/
structure Class.Grows (k k' : Class) : Prop where
  name : k'.name = k.name
  superclass : k'.superclass = k.superclass
  parent : k'.parent = k.parent
  isModule : k'.isModule = k.isModule
  isSingleton : k'.isSingleton = k.isSingleton
  methods : k.methods.keys ⊆ k'.methods.keys
  constants : k.constants.keys ⊆ k'.constants.keys
  slots : k.slots.keys ⊆ k'.slots.keys

theorem Class.Grows.refl (k : Class) : k.Grows k :=
  ⟨rfl, rfl, rfl, rfl, rfl, List.Subset.refl _, List.Subset.refl _, List.Subset.refl _⟩

theorem Class.Grows.trans {k k' k'' : Class} (g : k.Grows k') (g' : k'.Grows k'') :
    k.Grows k'' where
  name := g'.name.trans g.name
  superclass := g'.superclass.trans g.superclass
  parent := g'.parent.trans g.parent
  isModule := g'.isModule.trans g.isModule
  isSingleton := g'.isSingleton.trans g.isSingleton
  methods := List.Subset.trans g.methods g'.methods
  constants := List.Subset.trans g.constants g'.constants
  slots := List.Subset.trans g.slots g'.slots

/-- An object keeps its class, what stands behind it, and its variables. -/
structure Instance.Grows (o o' : Instance) : Prop where
  klass : o'.klass = o.klass
  base : o'.base = o.base
  slots : o.slots.keys ⊆ o'.slots.keys

theorem Instance.Grows.refl (o : Instance) : o.Grows o := ⟨rfl, rfl, List.Subset.refl _⟩

theorem Instance.Grows.trans {o o' o'' : Instance} (g : o.Grows o') (g' : o'.Grows o'') :
    o.Grows o'' where
  klass := g'.klass.trans g.klass
  base := g'.base.trans g.base
  slots := List.Subset.trans g.slots g'.slots

/-- A scope stays inside the one around it and keeps its variables. -/
structure Scope.Grows (s s' : Scope) : Prop where
  parent : s'.parent = s.parent
  locals : s.locals.keys ⊆ s'.locals.keys

theorem Scope.Grows.refl (s : Scope) : s.Grows s := ⟨rfl, List.Subset.refl _⟩

theorem Scope.Grows.trans {s s' s'' : Scope} (g : s.Grows s') (g' : s'.Grows s'') :
    s.Grows s'' where
  parent := g'.parent.trans g.parent
  locals := List.Subset.trans g.locals g'.locals

/-- Cells were added, and classes, objects and scopes stayed in their places and lost nothing. -/
structure Heap.Enlarges (h h' : Heap) : Prop where
  texts : h.texts.size ≤ h'.texts.size
  lists : h.lists.size ≤ h'.lists.size
  tables : h.tables.size ≤ h'.tables.size
  objects : h.objects.size ≤ h'.objects.size
  classes : h.classes.size ≤ h'.classes.size
  scopes : h.scopes.size ≤ h'.scopes.size
  growsObject : ∀ r : ObjectRef, r.index < h.objects.size → (h.object r).Grows (h'.object r)
  grows : ∀ c : ClassRef, c.index < h.classes.size → (h.klass c).Grows (h'.klass c)
  growsScope : ∀ s : ScopeRef, s.index < h.scopes.size → (h.scope s).Grows (h'.scope s)

theorem Heap.Enlarges.refl (h : Heap) : h.Enlarges h :=
  ⟨Nat.le_refl _, Nat.le_refl _, Nat.le_refl _, Nat.le_refl _, Nat.le_refl _, Nat.le_refl _,
    fun r _ => .refl (h.object r), fun c _ => .refl (h.klass c), fun s _ => .refl (h.scope s)⟩

theorem Heap.Enlarges.trans {h h' h'' : Heap} (g : h.Enlarges h') (g' : h'.Enlarges h'') :
    h.Enlarges h'' where
  texts := Nat.le_trans g.texts g'.texts
  lists := Nat.le_trans g.lists g'.lists
  tables := Nat.le_trans g.tables g'.tables
  objects := Nat.le_trans g.objects g'.objects
  classes := Nat.le_trans g.classes g'.classes
  scopes := Nat.le_trans g.scopes g'.scopes
  growsObject := fun r hr =>
    (g.growsObject r hr).trans (g'.growsObject r (Nat.lt_of_lt_of_le hr g.objects))
  grows := fun c hc => (g.grows c hc).trans (g'.grows c (Nat.lt_of_lt_of_le hc g.classes))
  growsScope := fun s hs =>
    (g.growsScope s hs).trans (g'.growsScope s (Nat.lt_of_lt_of_le hs g.scopes))

/-! ## Texts that are kept from programs -/

/-- What is the same all the time that programs run. -/
structure Policy where
  /-- The tables whose keys are not handed out. -/
  discreet : TableRef → Prop
  /-- Whether programs are read from texts, and their trees are what the grammar makes of these. -/
  fromText : Prop

/-- What is kept from programs. -/
class Secrecy extends Policy where
  /-- The texts that are to become keys of a table that is being made. -/
  reserved : TextRef → Prop

/-- Nothing is kept from programs. -/
abbrev Secrecy.free (fromText : Prop) : Secrecy := ⟨⟨fun _ => False, fromText⟩, fun _ => False⟩

/-- If nothing else is said, nothing is kept from programs, and they are any trees. -/
instance (priority := low) Secrecy.nothing : Secrecy := .free False

/-- The text is a key of one of some tables. -/
def Heap.IsKeyOf (h : Heap) (tables : TableRef → Prop) (c : TextRef) : Prop :=
  ∃ r, tables r ∧ ∃ e ∈ (h.table r).entries, e.2.key = .str c

/-- The text is kept from programs. -/
def Secrecy.Hides (S : Secrecy) (h : Heap) (c : TextRef) : Prop :=
  S.reserved c ∨ h.IsKeyOf S.discreet c

/-- The heap `h'` is larger than `h`. Of the texts of `h`, those that are kept from programs on `h'`
were kept from them before and have not changed. -/
structure Heap.ExtendsFrom (S : Secrecy) (h : Heap) (S' : Secrecy) (h' : Heap) : Prop where
  enlarges : h.Enlarges h'
  policy : S'.toPolicy = S.toPolicy
  reserved : ∀ c : TextRef, c.index < h.texts.size → S'.reserved c → S.reserved c
  hides : ∀ c : TextRef, c.index < h.texts.size → S'.Hides h' c →
    S.Hides h c ∧ h'.text c = h.text c

/-- One heap extends another while the same is kept from programs. -/
abbrev Heap.Extends [S : Secrecy] (h h' : Heap) : Prop := Heap.ExtendsFrom S h S h'

namespace Heap

variable {S S' S'' : Secrecy} {h h' h'' : Heap}

theorem ExtendsFrom.refl (h : Heap) : ExtendsFrom S h S h :=
  ⟨.refl h, rfl, fun _ _ hc => hc, fun _ _ hc => ⟨hc, rfl⟩⟩

theorem ExtendsFrom.trans (e : ExtendsFrom S h S' h') (e' : ExtendsFrom S' h' S'' h'') :
    ExtendsFrom S h S'' h'' where
  enlarges := e.enlarges.trans e'.enlarges
  policy := e'.policy.trans e.policy
  reserved := fun c hc hres =>
    e.reserved c hc (e'.reserved c (Nat.lt_of_lt_of_le hc e.enlarges.texts) hres)
  hides := fun c hc hhid => by
    obtain ⟨hhid', htext'⟩ := e'.hides c (Nat.lt_of_lt_of_le hc e.enlarges.texts) hhid
    obtain ⟨hhid'', htext⟩ := e.hides c hc hhid'
    exact ⟨hhid'', htext'.trans htext⟩

/-- Changes that leave texts and tables alone. -/
theorem Extends.of_enlarges [Secrecy] (g : h.Enlarges h') (htexts : h'.texts = h.texts)
    (htables : h'.tables = h.tables) : h.Extends h' := by
  refine ⟨g, rfl, fun _ _ hc => hc, fun c _ hhid => ⟨?_, congrArg (Store.get · c.index) htexts⟩⟩
  have htable : ∀ r, h'.table r = h.table r := fun r => congrArg (Store.get · r.index) htables
  rcases hhid with hres | ⟨r, hd, e, he, hkey⟩
  · exact .inl hres
  · exact .inr ⟨r, hd, e, htable r ▸ he, hkey⟩

end Heap

end Spinel
