import Spinel.Method.Class
import Spinel.Proofs.Heap.Chains
import Spinel.Proofs.Heap.References

/-!
# Chains of superclasses

Superclasses are older than their subclasses (`Heap.Ordered`), so the chain of a class is followed
to its end (`Heap.ancestors_of_some`) and stays what it is in larger heaps (`Enlarges.ancestors`).
The nearest class of a chain that decides about instances inherits from all others in it that do
(`Heap.nearest_decides`).
-/

namespace Spinel

namespace Heap

variable {h h' : Heap} {c s : ClassRef}

theorem ancestorsWithin_eq (ho : h.Ordered) {n m : Nat} (hn : c.index ≤ n) (hm : c.index ≤ m) :
    h.ancestorsWithin n c = h.ancestorsWithin m c := by
  rw [ancestorsWithin_eq_walk, ancestorsWithin_eq_walk]
  exact walk_eq_walk (r := ClassRef.index) ho hn hm

theorem ancestors_of_none (hs : (h.klass c).superclass = none) : h.ancestors c = [c] := by
  unfold ancestors
  rw [ancestorsWithin_eq_walk]
  exact walk_of_none hs

/-- A class stands before the ancestors of its superclass. -/
theorem ancestors_of_some (ho : h.Ordered) (hs : (h.klass c).superclass = some s) :
    h.ancestors c = c :: h.ancestors s := by
  rw [ho.ancestors_eq, hs]
  rfl

theorem exists_ancestors_eq_cons (h : Heap) (c : ClassRef) : ∃ rest, h.ancestors c = c :: rest := by
  unfold ancestors
  cases h.classes.size with
  | zero => exact ⟨[], rfl⟩
  | succ n =>
    unfold ancestorsWithin
    split <;> exact ⟨_, rfl⟩

theorem mem_ancestors_self (h : Heap) (c : ClassRef) : c ∈ h.ancestors c := by
  obtain ⟨rest, hrest⟩ := h.exists_ancestors_eq_cons c
  rw [hrest]
  exact List.mem_cons_self

theorem lives_ancestors [Secrecy] (ho : h.Ordered) (hc : Lives h c) : Lives h (h.ancestors c) := by
  have hwithin : ∀ (n : Nat) (c : ClassRef), Lives h c → Lives h (h.ancestorsWithin n c) := by
    intro n
    induction n with
    | zero =>
      intro c hc k hk
      obtain rfl := List.mem_singleton.1 hk
      exact hc
    | succ n ih =>
      intro c hc k hk
      unfold ancestorsWithin at hk
      split at hk
      · obtain rfl := List.mem_singleton.1 hk
        exact hc
      · next s hs =>
        rcases List.mem_cons.1 hk with rfl | hk
        · exact hc
        · exact ih s (Nat.lt_trans (ho c s hs) hc) k hk
  exact hwithin _ c hc

theorem exists_of_findMethod {name : String} {m : Callable} (hm : h.findMethod c name = some m) :
    ∃ k ∈ h.ancestors c, (h.klass k).methods.get? name = some m :=
  List.exists_of_findSome?_eq_some hm

/-! ## Classes stay where they are in the hierarchy -/

theorem Enlarges.ancestors (g : h.Enlarges h') (ho : h.Ordered) (ho' : h'.Ordered)
    (hc : c.index < h.classes.size) : h'.ancestors c = h.ancestors c := by
  obtain ⟨i⟩ := c
  induction i using Nat.strongRecOn with
  | ind i ih =>
    have hsame := (g.grows ⟨i⟩ hc).superclass
    cases hs : (h.klass ⟨i⟩).superclass with
    | none => rw [ancestors_of_none hs, ancestors_of_none (hsame.trans hs)]
    | some s =>
      have hlt := ho _ s hs
      rw [ancestors_of_some ho hs, ancestors_of_some ho' (hsame.trans hs)]
      exact congrArg (_ :: ·) (ih s.index hlt (Nat.lt_trans hlt hc))

/-! ## Core classes -/

/-- The nearest ancestor that decides about instances stands before all others that do. -/
theorem nearest_decides (ho : h.Ordered) {d : Option Creation.Layout}
    (hd : (h.ancestors c).findSome? Creation.decides = some d) :
    ∃ k, Creation.decides k = some d ∧
      ∀ k' ∈ h.ancestors c, Creation.decides k' ≠ none → k' ∈ h.ancestors k := by
  obtain ⟨i⟩ := c
  induction i using Nat.strongRecOn with
  | ind i ih =>
    by_cases hi : Creation.decides ⟨i⟩ = none
    · cases hs : (h.klass ⟨i⟩).superclass with
      | none =>
        rw [ancestors_of_none hs] at hd
        simp [hi] at hd
      | some s =>
        rw [ancestors_of_some ho hs] at hd ⊢
        have hlt := ho _ s hs
        simp only [List.findSome?_cons, hi] at hd
        obtain ⟨k, hk, hall⟩ := ih s.index hlt hd
        refine ⟨k, hk, fun k' hk' hne => ?_⟩
        rcases List.mem_cons.1 hk' with rfl | hk'
        · exact absurd hi hne
        · exact hall k' hk' hne
    · obtain ⟨d', hd'⟩ := Option.ne_none_iff_exists'.1 hi
      refine ⟨⟨i⟩, ?_, fun k' hk' _ => hk'⟩
      cases hs : (h.klass ⟨i⟩).superclass with
      | none =>
        rw [ancestors_of_none hs] at hd
        simpa [hd'] using hd
      | some s =>
        rw [ancestors_of_some ho hs] at hd
        simpa [hd'] using hd

/-! ## Heaps with the same classes -/

theorem klass_congr (hc : h.classes = h'.classes) (c : ClassRef) : h.klass c = h'.klass c := by
  unfold klass
  rw [hc]

theorem ancestorsWithin_congr (hc : h.classes = h'.classes) (n : Nat) (c : ClassRef) :
    h.ancestorsWithin n c = h'.ancestorsWithin n c := by
  induction n generalizing c with
  | zero => rfl
  | succ n ih =>
    unfold ancestorsWithin
    simp only [klass_congr hc, ih]

/-- Methods are looked up in classes alone. -/
theorem findMethod_congr (hc : h.classes = h'.classes) (c : ClassRef) (name : String) :
    h.findMethod c name = h'.findMethod c name := by
  unfold findMethod ancestors
  simp only [klass_congr hc, ancestorsWithin_congr hc, hc]

end Heap

theorem Core.ordered : Core.heap.Ordered := by
  intro c s hs
  have hall : ∀ i < Core.heap.classes.size,
      (Core.heap.klass ⟨i⟩).superclass.all (fun s => decide (s.index < i)) = true := by decide
  have hc := hall c.index (Heap.index_lt_of_superclass hs)
  rw [hs] at hc
  simpa using hc

end Spinel
