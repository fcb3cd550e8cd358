import Spinel.OrderedMap

/-!
# The entries of a map

Each key stands once, so what is found under a key is what was filed under it, and what is written
or left out is all that changes.
-/

namespace Spinel.OrderedMap

variable {κ α : Type} [BEq κ] [LawfulBEq κ] {k : κ} {a : α}

theorem find_of_mem {l : List (κ × α)} (hnodup : (l.map (·.1)).Nodup) (hmem : (k, a) ∈ l) :
    find k l = some a := by
  induction l with
  | nil => cases hmem
  | cons e rest ih =>
    rw [List.map_cons, List.nodup_cons] at hnodup
    rcases List.mem_cons.1 hmem with rfl | hmem
    · simp [find]
    · have hk : e.1 ≠ k := fun heq => hnodup.1 (heq ▸ List.mem_map_of_mem hmem)
      simp only [find, beq_iff_eq, hk, if_false]
      exact ih hnodup.2 hmem

theorem mem_of_find_eq {l : List (κ × α)} (hfind : find k l = some a) : (k, a) ∈ l := by
  induction l with
  | nil => cases hfind
  | cons e rest ih =>
    obtain ⟨k', a'⟩ := e
    by_cases hk : k' = k
    · subst hk
      simp only [find, beq_self_eq_true, if_true, Option.some.injEq] at hfind
      exact hfind ▸ List.mem_cons_self
    · simp only [find, beq_iff_eq, hk, if_false] at hfind
      exact List.mem_cons_of_mem _ (ih hfind)

theorem get?_eq_some_iff {m : OrderedMap κ α} : m.get? k = some a ↔ (k, a) ∈ m.entries :=
  ⟨mem_of_find_eq, find_of_mem m.nodup⟩

theorem exists_get?_of_mem_keys {m : OrderedMap κ α} (hk : k ∈ m.keys) : ∃ a, m.get? k = some a :=
  Option.isSome_iff_exists.1 ((contains_iff m k).2 hk)

theorem get?_eq_none_iff {m : OrderedMap κ α} : m.get? k = none ↔ k ∉ m.keys := by
  rw [← contains_iff, contains, Option.not_isSome_iff_eq_none]

theorem mem_keys_insert_self (m : OrderedMap κ α) (k : κ) (a : α) : k ∈ (m.insert k a).keys := by
  rw [← contains_iff, contains, get?_insert_self]
  rfl

theorem keys_subset_insert (m : OrderedMap κ α) (k : κ) (a : α) :
    m.keys ⊆ (m.insert k a).keys := by
  rw [keys_insert]
  split
  · exact List.Subset.refl _
  · exact List.subset_append_left _ _

theorem mem_put {e : κ × α} {l : List (κ × α)} (he : e ∈ put k a l) : e ∈ l ∨ e = (k, a) := by
  induction l with
  | nil => exact .inr (List.mem_singleton.1 he)
  | cons e' rest ih =>
    unfold put at he
    split at he
    · next hk =>
      rcases List.mem_cons.1 he with rfl | he
      · exact .inr (congrArg (·, a) (eq_of_beq hk))
      · exact .inl (List.mem_cons_of_mem _ he)
    · rcases List.mem_cons.1 he with rfl | he
      · exact .inl List.mem_cons_self
      · exact (ih he).imp_left (List.mem_cons_of_mem _)

theorem mem_insert {m : OrderedMap κ α} {e : κ × α} (he : e ∈ (m.insert k a).entries) :
    e ∈ m.entries ∨ e = (k, a) :=
  mem_put he

/-! ## Writing and leaving out -/

theorem put_of_not_mem {l : List (κ × α)} (h : k ∉ l.map (·.1)) (a : α) :
    put k a l = l ++ [(k, a)] := by
  induction l with
  | nil => rfl
  | cons e l ih =>
    obtain ⟨k', a'⟩ := e
    rw [List.map_cons, List.mem_cons, not_or] at h
    rw [put, if_neg (by simpa using Ne.symm h.1), ih h.2, List.cons_append]

theorem mem_map_fst_put {l : List (κ × α)} {k' : κ} :
    k' ∈ (put k a l).map (·.1) ↔ k' ∈ l.map (·.1) ∨ k' = k := by
  rw [map_fst_put]
  split
  · next hk => exact ⟨.inl, fun h => h.elim id (· ▸ hk)⟩
  · rw [List.mem_append, List.mem_singleton]

omit [BEq κ] [LawfulBEq κ] in
theorem fst_ne_of_mem {rest : List (κ × α)} {e p : κ × α} (hnew : e.1 ∉ rest.map (·.1))
    (he : e.1 = k) (hp : p ∈ rest) : p.1 ≠ k := by
  intro hpk
  have hmem : p.1 ∈ rest.map (·.1) := List.mem_map_of_mem hp
  exact hnew (he.trans hpk.symm ▸ hmem)

/-- What is written under a key is the only pair with it. -/
theorem mem_put_iff {l : List (κ × α)} (hnodup : (l.map (·.1)).Nodup) {p : κ × α} :
    p ∈ put k a l ↔ p = (k, a) ∨ p ∈ l ∧ p.1 ≠ k := by
  induction l with
  | nil => simp [put]
  | cons e rest ih =>
    obtain ⟨hnew, hrest⟩ := List.nodup_cons.1 hnodup
    unfold put
    split
    · next hk =>
      have hne := fst_ne_of_mem hnew (eq_of_beq hk) (p := p)
      grind
    · next hk =>
      rw [List.mem_cons, ih hrest]
      grind

theorem mem_drop_iff {l : List (κ × α)} (hnodup : (l.map (·.1)).Nodup) {p : κ × α} :
    p ∈ drop k l ↔ p ∈ l ∧ p.1 ≠ k := by
  induction l with
  | nil => simp [drop]
  | cons e rest ih =>
    obtain ⟨hnew, hrest⟩ := List.nodup_cons.1 hnodup
    unfold drop
    split
    · next hk =>
      have hne := fst_ne_of_mem hnew (eq_of_beq hk) (p := p)
      grind
    · next hk =>
      rw [List.mem_cons, ih hrest]
      grind

/-- Pairs with different keys, written one after another, are all there in order. -/
theorem foldl_put_of_nodup {done l : List (κ × α)} (h : ((done ++ l).map (·.1)).Nodup) :
    l.foldl (fun acc p => put p.1 p.2 acc) done = done ++ l := by
  induction l generalizing done with
  | nil => exact (List.append_nil done).symm
  | cons p rest ih =>
    have happend : done ++ p :: rest = done ++ [p] ++ rest := by rw [List.append_assoc]; rfl
    have hnew : p.1 ∉ done.map (·.1) := by
      intro hmem
      rw [List.map_append, List.nodup_append] at h
      exact h.2.2 _ hmem _ List.mem_cons_self rfl
    rw [List.foldl_cons, put_of_not_mem hnew, happend, ← ih (happend ▸ h)]

/-! ## Changing all values -/

section Values

variable {β : Type} (f : α → β)

omit [LawfulBEq κ]

theorem map_put (k : κ) (a : α) (l : List (κ × α)) :
    (put k a l).map (fun e => (e.1, f e.2)) = put k (f a) (l.map fun e => (e.1, f e.2)) := by
  induction l with
  | nil => rfl
  | cons e rest ih =>
    simp only [put, List.map_cons]
    split
    · rfl
    · rw [List.map_cons, ih]

theorem map_drop (k : κ) (l : List (κ × α)) :
    (drop k l).map (fun e => (e.1, f e.2)) = drop k (l.map fun e => (e.1, f e.2)) := by
  induction l with
  | nil => rfl
  | cons e rest ih =>
    simp only [drop, List.map_cons]
    split
    · rfl
    · rw [List.map_cons, ih]

theorem find_map (k : κ) (l : List (κ × α)) :
    find k (l.map fun e => (e.1, f e.2)) = (find k l).map f := by
  induction l with
  | nil => rfl
  | cons e rest ih =>
    simp only [find, List.map_cons]
    split
    · rfl
    · exact ih

end Values

theorem find_eq_lookup (k : κ) (l : List (κ × α)) : find k l = l.lookup k := by
  induction l with
  | nil => rfl
  | cons e rest ih =>
    rw [find, List.lookup_cons, BEq.comm, ih]
    cases k == e.1 <;> rfl

end Spinel.OrderedMap
