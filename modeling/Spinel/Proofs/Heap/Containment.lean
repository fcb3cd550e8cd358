import Mathlib.Data.Finset.Card
import Mathlib.Logic.Relation
import Spinel.Proofs.Heap.References

/-!
# Values inside of values

Keys and descriptions are made of those of the values inside. A key cuts off an array that is met
inside of itself, so there always is one (`Heap.keyWithin_of_le`). A description cuts off nothing,
so there is none exactly of the values that contain a value which contains itself
(`Heap.describe_eq_none_iff`). Both arguments count the collections that were not entered yet.
-/

namespace Spinel

/-! ## Answers for all items -/

section Traversal

variable {α β : Type} {f g : α → Option β} {xs : List α} {ys : List β}

theorem mapM_eq_some_iff : xs.mapM f = some ys ↔ xs.map f = ys.map some := by
  induction xs generalizing ys with
  | nil => cases ys <;> simp
  | cons x xs ih =>
    rw [List.mapM_cons, List.map_cons]
    cases hx : f x with
    | none => cases ys <;> simp
    | some y =>
      cases ys with
      | nil => cases xs.mapM f <;> simp
      | cons y' ys =>
        rw [List.map_cons, List.cons.injEq, ← ih]
        cases xs.mapM f <;> simp

theorem mapM_eq_none_iff : xs.mapM f = none ↔ ∃ x ∈ xs, f x = none := by
  induction xs with
  | nil => simp
  | cons x xs ih =>
    rw [List.mapM_cons, List.exists_mem_cons_iff, ← ih]
    cases f x with
    | none => simp
    | some y => cases xs.mapM f <;> simp

theorem mapM_congr (hfg : ∀ x ∈ xs, f x = g x) : xs.mapM f = xs.mapM g := by
  cases hg : xs.mapM g with
  | none =>
    obtain ⟨x, hx, hnone⟩ := mapM_eq_none_iff.1 hg
    exact mapM_eq_none_iff.2 ⟨x, hx, (hfg x hx).trans hnone⟩
  | some ys => rw [mapM_eq_some_iff, List.map_congr_left hfg, mapM_eq_some_iff.1 hg]

end Traversal

/-! ## Cells that are left -/

section Remaining

variable {α : Type} [DecidableEq α]

/-- How many of the cells were not seen yet. -/
def remaining (cells seen : List α) : Nat := (cells.toFinset \ seen.toFinset).card

theorem remaining_cons_lt {cells seen : List α} {a : α} (ha : a ∈ cells) (hnew : a ∉ seen) :
    remaining cells (a :: seen) < remaining cells seen := by
  have hmem : a ∈ cells.toFinset \ seen.toFinset := by
    rw [Finset.mem_sdiff, List.mem_toFinset, List.mem_toFinset]
    exact ⟨ha, hnew⟩
  unfold remaining
  rw [List.toFinset_cons, Finset.sdiff_insert]
  exact Finset.card_erase_lt_of_mem hmem

theorem remaining_le (cells seen : List α) : remaining cells seen ≤ cells.length :=
  (Finset.card_le_card Finset.sdiff_subset).trans cells.toFinset_card_le

end Remaining

namespace Heap

variable {h : Heap} {n m : Nat} {v u : Value}

theorem index_lt_of_mem_list {r : ListRef} (hv : v ∈ (h.list r).toList) :
    r.index < h.lists.size := by
  by_contra hge
  rw [list, Store.get_of_size_le (Nat.le_of_not_lt hge)] at hv
  cases hv

theorem index_lt_of_mem_table {r : TableRef} {e : HashKey × Entry}
    (he : e ∈ (h.table r).entries) : r.index < h.tables.size := by
  by_contra hge
  rw [table, Store.get_of_size_le (Nat.le_of_not_lt hge)] at he
  cases he

/-! ## Keys -/

section Keys

variable {visiting : List ListRef} {k : HashKey}

/-- The key of a value in the array `r`, where depth `n` is left to the array. -/
def keyInside (h : Heap) (visiting : List ListRef) (r : ListRef) : Nat → Value → Option HashKey
  | 0, _ => none
  | n + 1, v => h.keyWithin n (r :: visiting) v

theorem keyWithin_array (n : Nat) (visiting : List ListRef) (r : ListRef) :
    h.keyWithin n visiting (.array r) =
      if visiting.contains r then some (.identity (.list r))
      else ((h.list r).toList.mapM (h.keyInside visiting r n)).map .array := by
  cases n <;> rfl

theorem keyWithin_array_of_mem {r : ListRef} (hr : r ∈ visiting) :
    h.keyWithin n visiting (.array r) = some (.identity (.list r)) := by
  rw [keyWithin_array, if_pos (List.contains_iff_mem.2 hr)]

theorem keyWithin_array_of_notMem {r : ListRef} (hr : r ∉ visiting) :
    h.keyWithin n visiting (.array r) =
      ((h.list r).toList.mapM (h.keyInside visiting r n)).map .array := by
  rw [keyWithin_array, if_neg (fun hin => hr (List.contains_iff_mem.1 hin))]

/-- The arrays of a heap. -/
def listRefs (h : Heap) : List ListRef := (List.range h.lists.size).map ListRef.mk

theorem mem_listRefs {r : ListRef} (hr : r.index < h.lists.size) : r ∈ h.listRefs :=
  List.mem_map.2 ⟨r.index, List.mem_range.2 hr, rfl⟩

theorem remaining_listRefs_le (h : Heap) : remaining h.listRefs [] ≤ h.lists.size := by
  have hle := remaining_le h.listRefs []
  rwa [listRefs, List.length_map, List.length_range] at hle

/-- A depth beyond the arrays that are left is never used up. -/
theorem exists_keyWithin_eq_some (hn : remaining h.listRefs visiting ≤ n) :
    ∃ k, h.keyWithin n visiting v = some k := by
  induction n using Nat.strongRecOn generalizing visiting v with
  | ind n ih =>
  cases v with
  | array r =>
    by_cases hin : r ∈ visiting
    · exact ⟨_, keyWithin_array_of_mem hin⟩
    · rw [keyWithin_array_of_notMem hin]
      cases hkeys : (h.list r).toList.mapM (h.keyInside visiting r n) with
      | some keys => exact ⟨.array keys, rfl⟩
      | none =>
        obtain ⟨u, hu, hnone⟩ := mapM_eq_none_iff.1 hkeys
        have hlt := remaining_cons_lt (mem_listRefs (index_lt_of_mem_list hu)) hin
        obtain ⟨m, rfl⟩ : ∃ m, n = m + 1 := ⟨n - 1, by omega⟩
        obtain ⟨k, hk⟩ : ∃ k, h.keyWithin m (r :: visiting) u = some k :=
          ih m (Nat.lt_succ_self m) (by omega)
        cases hk.symm.trans hnone
  | _ => cases n <;> exact ⟨_, rfl⟩

theorem keyWithin_mono (hnm : n ≤ m) (hk : h.keyWithin n visiting v = some k) :
    h.keyWithin m visiting v = some k := by
  induction n using Nat.strongRecOn generalizing m visiting v k with
  | ind n ih =>
  cases v with
  | array r =>
    by_cases hin : r ∈ visiting
    · rwa [keyWithin_array_of_mem hin] at hk ⊢
    · rw [keyWithin_array_of_notMem hin, Option.map_eq_some_iff] at hk ⊢
      obtain ⟨keys, hkeys, rfl⟩ := hk
      refine ⟨keys, ?_, rfl⟩
      rw [← hkeys]
      apply mapM_congr
      intro u hu
      cases hinside : h.keyInside visiting r n u with
      | none =>
        have hnone := mapM_eq_none_iff.2 ⟨u, hu, hinside⟩
        cases hnone.symm.trans hkeys
      | some k =>
        cases n with
        | zero => cases hinside
        | succ n =>
          obtain ⟨m, rfl⟩ : ∃ l, m = l + 1 := ⟨m - 1, by omega⟩
          exact ih n (Nat.lt_succ_self n) (by omega) hinside
  | _ => cases n <;> cases m <;> exact hk

/-- Each depth from the number of arrays on gives the key of a value. -/
theorem keyWithin_of_le (hn : h.lists.size ≤ n) (v : Value) :
    h.keyWithin n [] v = some (h.key v) := by
  obtain ⟨k, hk⟩ : ∃ k, h.keyWithin h.lists.size [] v = some k :=
    exists_keyWithin_eq_some h.remaining_listRefs_le
  rw [key, hk]
  exact keyWithin_mono hn hk

end Keys

/-! ## Descriptions -/

section Descriptions

/-- What is directly in a value: the items of an array, and the keys and values of a hash. -/
inductive Part (h : Heap) : Value → Value → Prop
  | item {r : ListRef} {v : Value} (hv : v ∈ (h.list r).toList) : Part h (.array r) v
  | key {r : TableRef} {e : Entry} (he : e ∈ (h.table r).values) : Part h (.hash r) e.key
  | value {r : TableRef} {e : Entry} (he : e ∈ (h.table r).values) : Part h (.hash r) e.value

/-- A value contains a value, or is one, that contains itself. -/
def Endless (h : Heap) (v : Value) : Prop :=
  ∃ u, Relation.ReflTransGen h.Part v u ∧ Relation.TransGen h.Part u u

/-- The description of a value in a collection, where depth `n` is left to the collection. -/
def describeInside (h : Heap) : Nat → Value → Option String
  | 0, _ => none
  | n + 1, v => h.describeWithin n v

/-- The description of an entry of a hash. -/
def describeEntry (h : Heap) (n : Nat) (e : Entry) : Option String :=
  (h.describeInside n e.key).bind fun key =>
    (h.describeInside n e.value).map fun value => key ++ ": " ++ value

theorem describeWithin_array (n : Nat) (r : ListRef) :
    h.describeWithin n (.array r) = ((h.list r).toList.mapM (h.describeInside n)).map fun items =>
      "[" ++ commaJoined items ++ "]" := by
  rw [Option.map_eq_bind]
  cases n <;> rfl

theorem describeWithin_hash (n : Nat) (r : TableRef) :
    h.describeWithin n (.hash r) = ((h.table r).values.mapM (h.describeEntry n)).map fun entries =>
      "\x7b" ++ commaJoined entries ++ "\x7d" := by
  unfold describeEntry
  simp only [Option.map_eq_bind]
  cases n <;> rfl

theorem describeEntry_eq_none_iff {e : Entry} :
    h.describeEntry n e = none ↔
      h.describeInside n e.key = none ∨ h.describeInside n e.value = none := by
  unfold describeEntry
  cases h.describeInside n e.key <;> simp

/-- A value has no description exactly if something directly in it has none. -/
theorem describeWithin_eq_none_iff :
    h.describeWithin n v = none ↔ ∃ u, h.Part v u ∧ h.describeInside n u = none := by
  cases v with
  | array r =>
    rw [describeWithin_array, Option.map_eq_none_iff, mapM_eq_none_iff]
    constructor
    · rintro ⟨u, hu, hnone⟩
      exact ⟨u, .item hu, hnone⟩
    · rintro ⟨u, hpart, hnone⟩
      cases hpart with
      | item hu => exact ⟨u, hu, hnone⟩
  | hash r =>
    rw [describeWithin_hash, Option.map_eq_none_iff, mapM_eq_none_iff]
    simp only [describeEntry_eq_none_iff]
    constructor
    · rintro ⟨e, he, hnone | hnone⟩
      · exact ⟨e.key, .key he, hnone⟩
      · exact ⟨e.value, .value he, hnone⟩
    · rintro ⟨u, hpart, hnone⟩
      cases hpart with
      | key he => exact ⟨_, he, .inl hnone⟩
      | value he => exact ⟨_, he, .inr hnone⟩
  | _ =>
    refine iff_of_false (by cases n <;> exact Option.some_ne_none _) ?_
    rintro ⟨u, hpart, -⟩
    cases hpart

/-- Of what contains itself there is no description, whatever the depth. -/
theorem Endless.describeWithin_eq_none (hv : h.Endless v) (n : Nat) :
    h.describeWithin n v = none := by
  obtain ⟨u, hvu, huu⟩ := hv
  -- whatever leads to `u` has a part that leads to `u`
  have hpart : ∀ {w}, Relation.ReflTransGen h.Part w u →
      ∃ w', h.Part w w' ∧ Relation.ReflTransGen h.Part w' u := by
    intro w hwu
    exact Relation.TransGen.head'_iff.1 (Relation.TransGen.trans_right hwu huu)
  induction n generalizing v with
  | zero =>
    obtain ⟨w, hvw, -⟩ := hpart hvu
    exact describeWithin_eq_none_iff.2 ⟨w, hvw, rfl⟩
  | succ n ih =>
    obtain ⟨w, hvw, hwu⟩ := hpart hvu
    exact describeWithin_eq_none_iff.2 ⟨w, hvw, ih hwu⟩

/-- The arrays and hashes of a heap. -/
def collections (h : Heap) : List Value :=
  (List.range h.lists.size).map (.array ⟨·⟩) ++ (List.range h.tables.size).map (.hash ⟨·⟩)

theorem Part.mem_collections (hpart : h.Part v u) : v ∈ h.collections := by
  have hhash : ∀ {r : TableRef} {e : Entry}, e ∈ (h.table r).values →
      .hash r ∈ h.collections := by
    intro r e he
    obtain ⟨entry, hentry, -⟩ := List.mem_map.1 he
    refine List.mem_append_right _ (List.mem_map.2 ⟨r.index, ?_, rfl⟩)
    exact List.mem_range.2 (index_lt_of_mem_table hentry)
  cases hpart with
  | @item r u hu =>
    refine List.mem_append_left _ (List.mem_map.2 ⟨r.index, ?_, rfl⟩)
    exact List.mem_range.2 (index_lt_of_mem_list hu)
  | key he => exact hhash he
  | value he => exact hhash he

open Classical in
/-- A value that is nested deeper than there are collections left is inside of itself, if it is
inside of all that are not left. -/
theorem endless_of_describeWithin_eq_none {entered : List Value}
    (hentered : ∀ w ∈ entered, Relation.TransGen h.Part w v)
    (hn : remaining h.collections entered ≤ n) (hnone : h.describeWithin n v = none) :
    h.Endless v := by
  induction n using Nat.strongRecOn generalizing entered v with
  | ind n ih =>
  obtain ⟨u, hpart, hinside⟩ := describeWithin_eq_none_iff.1 hnone
  by_cases hin : v ∈ entered
  · exact ⟨v, .refl, hentered v hin⟩
  · have hlt := remaining_cons_lt hpart.mem_collections hin
    obtain ⟨m, rfl⟩ : ∃ m, n = m + 1 := ⟨n - 1, by omega⟩
    have hcons : ∀ w ∈ v :: entered, Relation.TransGen h.Part w u := by
      rw [List.forall_mem_cons]
      exact ⟨.single hpart, fun w hw => (hentered w hw).tail hpart⟩
    obtain ⟨w, huw, hww⟩ := ih m (Nat.lt_succ_self m) hcons (by omega) hinside
    exact ⟨w, huw.head hpart, hww⟩

/-- The values without a description are those that contain, or are, a value inside of itself. -/
theorem describe_eq_none_iff : h.describe v = none ↔ h.Endless v := by
  constructor
  · classical
    have hnothing : ∀ w ∈ ([] : List Value), Relation.TransGen h.Part w v := by simp
    apply endless_of_describeWithin_eq_none hnothing
    have hle := remaining_le h.collections []
    rwa [collections, List.length_append, List.length_map, List.length_map, List.length_range,
      List.length_range] at hle
  · intro hv
    exact hv.describeWithin_eq_none _

end Descriptions

end Heap

end Spinel
