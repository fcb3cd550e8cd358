import Spinel.Proofs.Heap.Extension

/-!
# Chains of links

A class has a superclass, a class or module stands in another one, and a scope in the scope around
it. Each of these links leads to something older (`Heap.Founded`). The walks along them are bounded
by the number of cells there are, and so they come to their ends before the bound: what is found
along a chain is what the recursion along its links would find (`Heap.Followed`), and nothing is met
twice.
-/

namespace Spinel

/-! ## Walks -/

section Walk

variable {α β : Type} {link : α → Option α} {r : α → Nat} {n m : Nat} {a b : α}

/-- What links lead to from `a` on, at most `n` steps. -/
def walk (link : α → Option α) : Nat → α → List α
  | 0, a => [a]
  | n + 1, a =>
    match link a with
    | none => [a]
    | some b => a :: walk link n b

theorem walk_of_none (ha : link a = none) : walk link n a = [a] := by
  cases n with
  | zero => rfl
  | succ n => simp only [walk, ha]

/-- A bound that is not smaller than the rank does not show. -/
theorem walk_eq_walk (hlink : ∀ a b, link a = some b → r b < r a) (hn : r a ≤ n)
    (hm : r a ≤ m) : walk link n a = walk link m a := by
  induction n generalizing a m with
  | zero =>
    have hnone : link a = none := by
      cases ha : link a with
      | none => rfl
      | some b => exact absurd (hlink a b ha) (by omega)
    rw [walk_of_none hnone, walk_of_none hnone]
  | succ n ih =>
    cases ha : link a with
    | none => rw [walk_of_none ha, walk_of_none ha]
    | some b =>
      have hlt := hlink a b ha
      obtain ⟨m, rfl⟩ : ∃ k, m = k + 1 := ⟨m - 1, by omega⟩
      have hrest : walk link n b = walk link m b := ih (by omega) (by omega)
      simp only [walk, ha, hrest]

theorem walk_of_some (hlink : ∀ a b, link a = some b → r b < r a) (hn : r a ≤ n)
    (ha : link a = some b) : walk link n a = a :: walk link n b := by
  have hlt := hlink a b ha
  obtain ⟨n, rfl⟩ : ∃ k, n = k + 1 := ⟨n - 1, by omega⟩
  have hrest : walk link n b = walk link (n + 1) b := walk_eq_walk hlink (by omega) (by omega)
  rw [← hrest]
  simp only [walk, ha]

theorem walk_eq_cons (hlink : ∀ a b, link a = some b → r b < r a)
    (hn : ∀ b, link a = some b → r a ≤ n) :
    walk link n a = a :: (link a).elim [] (walk link n) := by
  cases ha : link a with
  | none => exact walk_of_none ha
  | some b => exact walk_of_some hlink (hn b ha) ha

/-- Nothing on the way is of higher rank than where it began. -/
theorem rank_le_of_mem_walk (hlink : ∀ a b, link a = some b → r b < r a)
    (hb : b ∈ walk link n a) : r b ≤ r a := by
  induction n generalizing a with
  | zero => exact Nat.le_of_eq (congrArg r (List.mem_singleton.1 hb))
  | succ n ih =>
    unfold walk at hb
    split at hb
    · exact Nat.le_of_eq (congrArg r (List.mem_singleton.1 hb))
    · next c hc =>
      rcases List.mem_cons.1 hb with rfl | hb
      · exact Nat.le_refl _
      · exact Nat.le_trans (ih hb) (Nat.le_of_lt (hlink a c hc))

theorem nodup_walk (hlink : ∀ a b, link a = some b → r b < r a) : (walk link n a).Nodup := by
  induction n generalizing a with
  | zero => exact List.nodup_cons.2 ⟨List.not_mem_nil, List.nodup_nil⟩
  | succ n ih =>
    unfold walk
    split
    · exact List.nodup_cons.2 ⟨List.not_mem_nil, List.nodup_nil⟩
    · next b hb =>
      refine List.nodup_cons.2 ⟨fun hmem => ?_, ih⟩
      exact absurd (rank_le_of_mem_walk hlink hmem) (Nat.not_le_of_lt (hlink a b hb))

section Search

variable {o : Option α} {chain : α → List α}

theorem findSome?_chain {f : α → Option β} :
    (a :: o.elim [] chain).findSome? f = (f a <|> o.bind fun b => (chain b).findSome? f) := by
  rw [List.findSome?_cons]
  cases f a <;> cases o <;> rfl

theorem find?_chain {p : α → Bool} :
    (a :: o.elim [] chain).find? p =
      if p a then some a else o.bind fun b => (chain b).find? p := by
  rw [List.find?_cons]
  cases p a <;> cases o <;> rfl

end Search

end Walk

/-! ## Chains -/

namespace Heap

variable {h : Heap} {n : Nat}

theorem ancestorsWithin_eq_walk (c : ClassRef) :
    h.ancestorsWithin n c = walk (fun c => (h.klass c).superclass) n c := by
  induction n generalizing c with
  | zero => rfl
  | succ n ih =>
    unfold ancestorsWithin walk
    cases (h.klass c).superclass with
    | none => rfl
    | some s => exact congrArg (c :: ·) (ih s)

theorem enclosingWithin_eq_walk (c : ClassRef) :
    h.enclosingWithin n c = walk (fun c => (h.klass c).parent) n c := by
  induction n generalizing c with
  | zero => rfl
  | succ n ih =>
    unfold enclosingWithin walk
    cases (h.klass c).parent with
    | none => rfl
    | some p => exact congrArg (c :: ·) (ih p)

theorem scopesWithin_eq_walk (s : ScopeRef) :
    h.scopesWithin n s = walk (fun s => (h.scope s).parent) n s := by
  induction n generalizing s with
  | zero => rfl
  | succ n ih =>
    unfold scopesWithin walk
    cases (h.scope s).parent with
    | none => rfl
    | some p => exact congrArg (s :: ·) (ih p)

/-- Superclasses are older than their subclasses. -/
def Ordered (h : Heap) : Prop :=
  ∀ c s : ClassRef, (h.klass c).superclass = some s → s.index < c.index

/-- All links lead to something older. -/
structure Founded (h : Heap) : Prop where
  superclass : h.Ordered
  parent : ∀ c p : ClassRef, (h.klass c).parent = some p → p.index < c.index
  scope : ∀ s p : ScopeRef, (h.scope s).parent = some p → p.index < s.index

section Bounds

variable {c k : ClassRef} {s p : ScopeRef}

/-- Only classes on the heap have superclasses. -/
theorem index_lt_of_superclass (hs : (h.klass c).superclass = some k) :
    c.index < h.classes.size := by
  refine Nat.lt_of_not_le fun hc => ?_
  have hdefault : h.klass c = default := Store.get_of_size_le hc
  rw [hdefault] at hs
  cases hs

theorem index_lt_of_parent (hp : (h.klass c).parent = some k) : c.index < h.classes.size := by
  refine Nat.lt_of_not_le fun hc => ?_
  have hdefault : h.klass c = default := Store.get_of_size_le hc
  rw [hdefault] at hp
  cases hp

theorem index_lt_of_scope (hp : (h.scope s).parent = some p) : s.index < h.scopes.size := by
  refine Nat.lt_of_not_le fun hs => ?_
  have hdefault : h.scope s = default := Store.get_of_size_le hs
  rw [hdefault] at hp
  cases hp

end Bounds

theorem Ordered.ancestors_eq (ho : h.Ordered) (c : ClassRef) :
    h.ancestors c = c :: (h.klass c).superclass.elim [] h.ancestors := by
  have hchain : h.ancestors = walk (fun c => (h.klass c).superclass) h.classes.size :=
    funext ancestorsWithin_eq_walk
  rw [hchain]
  exact walk_eq_cons (r := ClassRef.index) ho fun _ hs =>
    Nat.le_of_lt (index_lt_of_superclass hs)

theorem Ordered.nodup_ancestors (ho : h.Ordered) (c : ClassRef) : (h.ancestors c).Nodup := by
  unfold ancestors
  rw [ancestorsWithin_eq_walk]
  exact nodup_walk (r := ClassRef.index) ho

namespace Founded

variable (hf : h.Founded)

include hf

theorem enclosing_eq (c : ClassRef) :
    h.enclosing c = c :: (h.klass c).parent.elim [] h.enclosing := by
  have hchain : h.enclosing = walk (fun c => (h.klass c).parent) h.classes.size :=
    funext enclosingWithin_eq_walk
  rw [hchain]
  exact walk_eq_cons (r := ClassRef.index) hf.parent fun _ hp =>
    Nat.le_of_lt (index_lt_of_parent hp)

theorem scopeChain_eq (s : ScopeRef) :
    h.scopeChain s = s :: (h.scope s).parent.elim [] h.scopeChain := by
  have hchain : h.scopeChain = walk (fun s => (h.scope s).parent) h.scopes.size :=
    funext scopesWithin_eq_walk
  rw [hchain]
  exact walk_eq_cons (r := ScopeRef.index) hf.scope fun _ hp =>
    Nat.le_of_lt (index_lt_of_scope hp)

end Founded

/-- The nearest scope that has a variable of a name. -/
def holder? (h : Heap) (s : ScopeRef) (name : String) : Option ScopeRef :=
  (h.scopeChain s).find? fun k => h.hasLocal k name

/-- Whatever is looked for along a chain of links is found by recursion along these links. -/
structure Followed (h : Heap) : Prop where
  ancestors : ∀ c, h.ancestors c = c :: (h.klass c).superclass.elim [] h.ancestors
  nodup : ∀ c, (h.ancestors c).Nodup
  enclosing : ∀ c, h.enclosing c = c :: (h.klass c).parent.elim [] h.enclosing
  scopeChain : ∀ s, h.scopeChain s = s :: (h.scope s).parent.elim [] h.scopeChain
  findMethod : ∀ c name, h.findMethod c name =
    ((h.klass c).methods.get? name <|> (h.klass c).superclass.bind (h.findMethod · name))
  fullName : ∀ c, h.fullName c = (h.klass c).parent.elim (h.klass c).name
    fun p => h.fullName p ++ "::" ++ (h.klass c).name
  lookupConstant : ∀ s name, h.lookupConstant s name =
    (h.constantIn s name <|> (h.scope s).parent.bind (h.lookupConstant · name))
  findLocal : ∀ s name, h.findLocal s name =
    ((h.scope s).locals.get? name <|> (h.scope s).parent.bind (h.findLocal · name))
  holder : ∀ s name, h.holder? s name =
    if h.hasLocal s name then some s else (h.scope s).parent.bind (h.holder? · name)
  assignee : ∀ s name, h.assignee s name =
    if (h.scope s).kind = .block then (h.holder? s name).getD s else s

theorem Founded.fullName_eq (hf : h.Founded) (c : ClassRef) :
    h.fullName c = (h.klass c).parent.elim (h.klass c).name
      fun p => h.fullName p ++ "::" ++ (h.klass c).name := by
  unfold fullName
  rw [hf.enclosing_eq, List.reverse_cons, List.map_append]
  cases hp : (h.klass c).parent with
  | none => exact String.intercalate_singleton
  | some p =>
    rw [Option.elim_some, Option.elim_some, String.intercalate_append_of_ne_nil]
    · rw [List.map_singleton, String.intercalate_singleton]
    · rw [hf.enclosing_eq]
      simp
    · simp

theorem Founded.followed (hf : h.Founded) : h.Followed where
  ancestors := hf.superclass.ancestors_eq
  nodup := hf.superclass.nodup_ancestors
  enclosing := hf.enclosing_eq
  scopeChain := hf.scopeChain_eq
  findMethod := fun c name => by
    unfold Heap.findMethod
    rw [hf.superclass.ancestors_eq, findSome?_chain]
  fullName := hf.fullName_eq
  lookupConstant := fun s name => by
    unfold Heap.lookupConstant
    rw [hf.scopeChain_eq, findSome?_chain]
  findLocal := fun s name => by
    unfold Heap.findLocal
    rw [hf.scopeChain_eq, findSome?_chain]
  holder := fun s name => by
    unfold Heap.holder?
    rw [hf.scopeChain_eq, find?_chain]
  assignee := fun s name => by
    unfold Heap.assignee Heap.holder?
    cases (h.scope s).kind <;> rfl

end Heap

end Spinel
