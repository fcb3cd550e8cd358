import Mathlib.Data.List.Nodup
import Mathlib.Data.List.Sort
import Spinel.Proofs.OrderedMap

/-!
# What a map lists after a history

A history is what was done to a map, in order. What the map has to list is said of the history
alone (`History.Lists`): each key under which something was stored since it was last removed, with
the value that was stored last, and in the order in which the keys were first stored since. A
history has one such listing (`History.Lists.unique`), and a map in insertion order keeps it from
deed to deed.
-/

namespace Spinel

/-- What is done to a map. -/
inductive Deed (κ α : Type) where
  | store (key : κ) (value : α)
  | remove (key : κ)
  | clear

namespace Deed

variable {κ α : Type}

/-- The deed leaves nothing under the key. -/
def Ends (d : Deed κ α) (k : κ) : Prop := d = .remove k ∨ d = .clear

end Deed

/-- What was done to a map so far. -/
abbrev History (κ α : Type) := List (Deed κ α)

namespace History

variable {κ α : Type} {past : History κ α} {k k' : κ} {a a' : α} {i j : Nat}

/-- Pairs were stored one after another. -/
def ofPairs (pairs : List (κ × α)) : History κ α := pairs.map fun p => .store p.1 p.2

/-- The deed at a place stored the value under the key, which has not been removed since. -/
def StoredAt (past : History κ α) (k : κ) (a : α) (i : Nat) : Prop :=
  past[i]? = some (.store k a) ∧ ∀ d ∈ past.drop (i + 1), ¬d.Ends k

/-- The value is the one that was stored last under the key. -/
def StoredLast (past : History κ α) (k : κ) (a : α) : Prop :=
  ∃ i, past.StoredAt k a i ∧ ∀ b j, past.StoredAt k b j → j ≤ i

/-- The one key was first stored, since it was last removed, before the other. -/
def Before (past : History κ α) (k k' : κ) : Prop :=
  ∃ a i, past.StoredAt k a i ∧ ∀ b j, past.StoredAt k' b j → i < j

/-- The pairs are what is to be listed after a history. -/
structure Lists (past : History κ α) (pairs : List (κ × α)) : Prop where
  nodup : (pairs.map (·.1)).Nodup
  mem_keys : ∀ k, k ∈ pairs.map (·.1) ↔ ∃ a i, past.StoredAt k a i
  value : ∀ p ∈ pairs, past.StoredLast p.1 p.2
  order : (pairs.map (·.1)).Pairwise past.Before

/-! ## One listing -/

theorem StoredLast.unique (h : past.StoredLast k a) (h' : past.StoredLast k a') : a = a' := by
  obtain ⟨i, hi, hlast⟩ := h
  obtain ⟨j, hj, hlast'⟩ := h'
  obtain rfl : i = j := Nat.le_antisymm (hlast' _ _ hi) (hlast _ _ hj)
  have hsame := hi.1.symm.trans hj.1
  injections

theorem Before.asymm (h : past.Before k k') : ¬past.Before k' k := by
  obtain ⟨a, i, hi, hfirst⟩ := h
  rintro ⟨b, j, hj, hfirst'⟩
  exact Nat.lt_asymm (hfirst _ _ hj) (hfirst' _ _ hi)

namespace Lists

variable {pairs pairs' : List (κ × α)}

theorem mem_iff (h : past.Lists pairs) : (k, a) ∈ pairs ↔ past.StoredLast k a := by
  refine ⟨h.value (k, a), fun hlast => ?_⟩
  obtain ⟨i, hi, -⟩ := id hlast
  obtain ⟨⟨k, b⟩, hmem, rfl⟩ := List.mem_map.1 ((h.mem_keys k).2 ⟨a, i, hi⟩)
  exact hlast.unique (h.value _ hmem) ▸ hmem

theorem unique (h : past.Lists pairs) (h' : past.Lists pairs') : pairs = pairs' := by
  have hperm : pairs.Perm pairs' :=
    (List.perm_ext_iff_of_nodup (List.Nodup.of_map _ h.nodup) (List.Nodup.of_map _ h'.nodup)).2
      fun p => h.mem_iff.trans h'.mem_iff.symm
  refine hperm.eq_of_pairwise (fun p q _ _ hpq hqp => absurd hqp hpq.asymm)
    (List.pairwise_map.1 h.order) (List.pairwise_map.1 h'.order)

end Lists

/-! ## One more deed -/

theorem StoredAt.lt_length (h : past.StoredAt k a i) : i < past.length :=
  (List.getElem?_eq_some_iff.1 h.1).1

/-- What was stored before a deed is there after it if the deed does not remove it. What the deed
itself stores is there. -/
theorem storedAt_concat {d : Deed κ α} :
    (past ++ [d]).StoredAt k a i ↔
      past.StoredAt k a i ∧ ¬d.Ends k ∨ i = past.length ∧ d = .store k a := by
  by_cases hi : i < past.length
  · have hdrop : (past ++ [d]).drop (i + 1) = past.drop (i + 1) ++ [d] :=
      List.drop_append_of_le_length hi
    have hne : i ≠ past.length := Nat.ne_of_lt hi
    unfold StoredAt
    rw [List.getElem?_append_left hi, hdrop, List.forall_mem_append, List.forall_mem_singleton]
    simp only [hne, false_and, or_false, and_assoc]
  · have hdrop : (past ++ [d]).drop (i + 1) = [] := List.drop_eq_nil_of_le (by grind)
    have hold : ¬past.StoredAt k a i := fun h => hi h.lt_length
    unfold StoredAt at *
    rw [List.getElem?_append_right (Nat.le_of_not_lt hi), hdrop]
    grind

theorem not_ends_store : ¬(Deed.store k a).Ends k' := by
  rintro (h | h) <;> cases h

theorem storedAt_store {b : α} :
    (past ++ [Deed.store k' b]).StoredAt k a i ↔
      past.StoredAt k a i ∨ i = past.length ∧ k = k' ∧ a = b := by
  rw [storedAt_concat]
  simp only [not_ends_store, not_false_eq_true, and_true, Deed.store.injEq, eq_comm]

theorem storedAt_remove :
    (past ++ [Deed.remove k']).StoredAt k a i ↔ past.StoredAt k a i ∧ k ≠ k' := by
  rw [storedAt_concat]
  simp [Deed.Ends, eq_comm]

theorem storedAt_clear : ¬(past ++ [Deed.clear]).StoredAt k a i := by
  rw [storedAt_concat]
  simp [Deed.Ends]

theorem Before.store (h : past.Before k k') {k'' : κ} {b : α} :
    (past ++ [Deed.store k'' b]).Before k k' := by
  obtain ⟨a, i, hi, hfirst⟩ := h
  refine ⟨a, i, storedAt_store.2 (.inl hi), fun c j hj => ?_⟩
  rcases storedAt_store.1 hj with hj | ⟨rfl, -, -⟩
  · exact hfirst c j hj
  · exact hi.lt_length

theorem Before.remove (h : past.Before k k') {k'' : κ} (hne : k ≠ k'') :
    (past ++ [Deed.remove k'']).Before k k' := by
  obtain ⟨a, i, hi, hfirst⟩ := h
  exact ⟨a, i, storedAt_remove.2 ⟨hi, hne⟩, fun c j hj => hfirst c j (storedAt_remove.1 hj).1⟩

theorem StoredLast.store (h : past.StoredLast k a) (hne : k ≠ k') {b : α} :
    (past ++ [Deed.store k' b]).StoredLast k a := by
  obtain ⟨i, hi, hlast⟩ := h
  refine ⟨i, storedAt_store.2 (.inl hi), fun c j hj => ?_⟩
  exact hlast c j ((storedAt_store.1 hj).resolve_right fun hnew => hne hnew.2.1)

theorem storedLast_store_self : (past ++ [Deed.store k a]).StoredLast k a := by
  refine ⟨past.length, storedAt_store.2 (.inr ⟨rfl, rfl, rfl⟩), fun b j hj => ?_⟩
  rcases storedAt_store.1 hj with hold | ⟨rfl, -, -⟩
  · exact Nat.le_of_lt hold.lt_length
  · exact Nat.le_refl _

theorem StoredLast.remove (h : past.StoredLast k a) (hne : k ≠ k') :
    (past ++ [Deed.remove k']).StoredLast k a := by
  obtain ⟨i, hi, hlast⟩ := h
  exact ⟨i, storedAt_remove.2 ⟨hi, hne⟩, fun c j hj => hlast c j (storedAt_remove.1 hj).1⟩

end History

/-! ## Maps -/

namespace History.Lists

open OrderedMap

variable {κ α : Type} [BEq κ] [LawfulBEq κ] {past : History κ α} {pairs : List (κ × α)} {k : κ}
  {a : α}

omit [BEq κ] [LawfulBEq κ] in
theorem nil : Lists ([] : History κ α) [] where
  nodup := .nil
  mem_keys _ := ⟨nofun, fun ⟨_, _, h⟩ => absurd h.lt_length (Nat.not_lt_zero _)⟩
  value := nofun
  order := .nil

omit [BEq κ] [LawfulBEq κ] in
theorem clear : (past ++ [Deed.clear]).Lists [] where
  nodup := .nil
  mem_keys _ := ⟨nofun, fun ⟨_, _, h⟩ => absurd h storedAt_clear⟩
  value := nofun
  order := .nil

theorem store (h : past.Lists pairs) (k : κ) (a : α) :
    (past ++ [Deed.store k a]).Lists (put k a pairs) where
  nodup := nodup_put k a h.nodup
  mem_keys := by
    intro k'
    rw [mem_map_fst_put, h.mem_keys]
    constructor
    · rintro (⟨b, i, hi⟩ | rfl)
      · exact ⟨b, i, storedAt_store.2 (.inl hi)⟩
      · exact ⟨a, _, storedAt_store.2 (.inr ⟨rfl, rfl, rfl⟩)⟩
    · rintro ⟨b, i, hi⟩
      exact (storedAt_store.1 hi).imp (fun hold => ⟨b, i, hold⟩) fun hnew => hnew.2.1
  value := by
    intro p hp
    rcases (mem_put_iff h.nodup).1 hp with rfl | ⟨hold, hne⟩
    · exact storedLast_store_self
    · exact (h.value p hold).store hne
  order := by
    rw [map_fst_put]
    have hold : (pairs.map (·.1)).Pairwise (past ++ [Deed.store k a]).Before :=
      h.order.imp fun hbefore => hbefore.store
    split
    · exact hold
    · next hnew =>
      refine List.pairwise_append.2 ⟨hold, List.pairwise_singleton _ _, fun k' hk' k'' hk'' => ?_⟩
      obtain ⟨b, i, hi⟩ := (h.mem_keys k').1 hk'
      obtain rfl := List.mem_singleton.1 hk''
      -- the key is stored for the first time, after all those that are there
      refine ⟨b, i, storedAt_store.2 (.inl hi), fun c j hj => ?_⟩
      rcases storedAt_store.1 hj with hj | ⟨rfl, -, -⟩
      · exact absurd ((h.mem_keys _).2 ⟨c, j, hj⟩) hnew
      · exact hi.lt_length

theorem remove (h : past.Lists pairs) (k : κ) :
    (past ++ [Deed.remove k]).Lists (drop k pairs) where
  nodup := ((drop_sublist k pairs).map _).nodup h.nodup
  mem_keys := by
    intro k'
    have hkeys : k' ∈ (drop k pairs).map (·.1) ↔ k' ∈ pairs.map (·.1) ∧ k' ≠ k := by
      simp only [List.mem_map, mem_drop_iff h.nodup]
      grind
    rw [hkeys, h.mem_keys]
    simp only [storedAt_remove, exists_and_right]
  value := by
    intro p hp
    obtain ⟨hold, hne⟩ := (mem_drop_iff h.nodup).1 hp
    exact (h.value p hold).remove hne
  order := by
    have hold := h.order.sublist ((drop_sublist k pairs).map _)
    refine hold.imp_of_mem fun hmem _ hbefore => ?_
    obtain ⟨p, hp, rfl⟩ := List.mem_map.1 hmem
    exact hbefore.remove ((mem_drop_iff h.nodup).1 hp).2

/-! ## Many pairs -/

theorem storeAll (h : past.Lists pairs) (more : List (κ × α)) :
    (past ++ History.ofPairs more).Lists (more.foldl (fun l p => put p.1 p.2 l) pairs) := by
  induction more generalizing past pairs with
  | nil => exact (List.append_nil past).symm ▸ h
  | cons p rest ih =>
    have hrest := ih (h.store p.1 p.2)
    rw [List.append_assoc] at hrest
    exact hrest

/-- Pairs with different keys, stored one after another, are listed as they are. -/
theorem ofPairs (h : (pairs.map (·.1)).Nodup) : (History.ofPairs pairs).Lists pairs := by
  have hall := nil.storeAll pairs
  rw [foldl_put_of_nodup h] at hall
  exact hall

/-- Storing pairs after all that is listed gives what storing them after the history gives. -/
theorem extend (h : past.Lists pairs) {more listed : List (κ × α)}
    (hlisted : (History.ofPairs (pairs ++ more)).Lists listed) :
    (past ++ History.ofPairs more).Lists listed := by
  have hboth : History.ofPairs (pairs ++ more) = History.ofPairs pairs ++ History.ofPairs more :=
    List.map_append
  have hfold := (ofPairs h.nodup).storeAll more
  rw [← hboth] at hfold
  exact hlisted.unique hfold ▸ h.storeAll more

end History.Lists

end Spinel
