import Spinel.Method.Hash
import Spinel.Proofs.Heap.Containment
import Spinel.Proofs.Heap.Growth
import Spinel.Proofs.History

/-!
# Tables that are what their histories say

As long as nothing in them is changed, the keys of values stay the same while texts are added
(`Heap.Retains.key_eq`). So the entries of a table stay filed under what their keys are, and each
way to write into a table keeps it in step with its history (`Heap.Records`), whether it keeps the
old key of an entry or takes the new one.
-/

namespace Spinel

/-! ## Keys that stay -/

namespace Heap

variable {h h' h'' : Heap} {v : Value}

/-- A text as a value is on the heap. -/
def HasText (h : Heap) : Value → Prop
  | .str r => r.index < h.texts.size
  | _ => True

theorem HasText.mono (hv : h.HasText v) (hle : h.texts.size ≤ h'.texts.size) : h'.HasText v := by
  cases v with
  | str r => exact Nat.lt_of_lt_of_le hv hle
  | _ => trivial

/-- The texts in arrays are on the heap. -/
def Closed (h : Heap) : Prop := ∀ r, ∀ v ∈ (h.list r).toList, h.HasText v

/-- Texts were added at most, and arrays and objects are as they were. -/
structure Retains (h h' : Heap) : Prop where
  texts : h.texts.Grows h'.texts
  lists : h'.lists = h.lists
  objects : h'.objects = h.objects

namespace Retains

theorem refl (h : Heap) : h.Retains h := ⟨.refl _, rfl, rfl⟩

theorem trans (g : h.Retains h') (g' : h'.Retains h'') : h.Retains h'' :=
  ⟨g.texts.trans g'.texts, g'.lists.trans g.lists, g'.objects.trans g.objects⟩

theorem entryKey (h : Heap) (v : Value) : h.Retains (h.entryKey v).2 := by
  cases v with
  | str r => exact ⟨.push _ _, rfl, rfl⟩
  | _ => exact .refl h

theorem newTable (h : Heap) (t : Table) : h.Retains (h.newTable t).2 :=
  ⟨.refl _, rfl, rfl⟩

theorem modifyTable (h : Heap) (r : TableRef) (f : Table → Table) :
    h.Retains (h.modifyTable r f) := ⟨.refl _, rfl, rfl⟩

theorem tableRef?_eq (g : h.Retains h') (v : Value) : h'.tableRef? v = h.tableRef? v := by
  have hrep : h'.representation v = h.representation v := by
    cases v with
    | object r => exact congrArg (fun s : Store Instance => (s.get r.index).base.getD _) g.objects
    | _ => rfl
  unfold tableRef?
  rw [hrep]

theorem hasText (g : h.Retains h') (hv : h.HasText v) : h'.HasText v := hv.mono g.texts.size_le

theorem closed (g : h.Retains h') (hc : h.Closed) : h'.Closed := by
  intro r v hv
  unfold list at hv
  rw [g.lists] at hv
  exact g.hasText (hc r v hv)

theorem keyWithin_eq (g : h.Retains h') (hc : h.Closed) (n : Nat) (visiting : List ListRef)
    (hv : h.HasText v) : h'.keyWithin n visiting v = h.keyWithin n visiting v := by
  induction n using Nat.strongRecOn generalizing visiting v with
  | ind n ih =>
  cases v with
  | str r =>
    have htext : h'.text r = h.text r := g.texts.get_eq hv
    cases n <;> exact congrArg (some ∘ HashKey.str) htext
  | array r =>
    have hlist : h'.list r = h.list r := congrArg (·.get r.index) g.lists
    have hitems : (h.list r).toList.mapM (h'.keyInside visiting r n) =
        (h.list r).toList.mapM (h.keyInside visiting r n) := by
      apply mapM_congr
      intro u hu
      cases n with
      | zero => rfl
      | succ n => exact ih n (Nat.lt_succ_self n) _ (hc r u hu)
    rw [keyWithin_array, keyWithin_array, hlist, hitems]
  | _ => cases n <;> rfl

theorem key_eq (g : h.Retains h') (hc : h.Closed) (hv : h.HasText v) : h'.key v = h.key v := by
  unfold key
  rw [g.lists, g.keyWithin_eq hc _ _ hv]

end Retains

theorem tables_entryKey (h : Heap) (v : Value) : (h.entryKey v).2.tables = h.tables := by
  cases v <;> rfl

theorem tables_insertPairs (h : Heap) (t : Table) (pairs : List (Value × Value)) :
    (h.insertPairs t pairs).2.tables = h.tables := by
  induction pairs generalizing h t with
  | nil => rfl
  | cons p rest ih => exact (ih _ _).trans (tables_entryKey h p.1)

/-- What an entry keeps as its key is filed like the key itself. -/
theorem hasText_entryKey (hv : h.HasText v) : (h.entryKey v).2.HasText (h.entryKey v).1 := by
  cases v with
  | str r => exact Nat.lt_of_lt_of_eq (Nat.lt_succ_self _) (Store.size_push _ _).symm
  | _ => exact hv

theorem key_entryKey (v : Value) : (h.entryKey v).2.key (h.entryKey v).1 = h.key v := by
  cases v with
  | str r =>
    rw [key_str]
    exact (key_str _ _).trans (congrArg HashKey.str (Store.get_push_size h.texts (h.text r)))
  | _ => rfl

end Heap

/-! ## Tables and their histories -/

namespace Tables

/-- The keys that the entries are filed under, with their values. -/
def listing (t : Table) : List (HashKey × Value) := t.entries.map fun e => (e.1, e.2.value)

theorem map_fst_listing (t : Table) : (listing t).map (·.1) = t.keys := List.map_map

theorem listing_insert (t : Table) (k : HashKey) (e : Entry) :
    listing (t.insert k e) = OrderedMap.put k e.value (listing t) :=
  OrderedMap.map_put Entry.value k e t.entries

theorem listing_erase (t : Table) (k : HashKey) :
    listing (t.erase k) = OrderedMap.drop k (listing t) :=
  OrderedMap.map_drop Entry.value k t.entries

theorem lookUp_eq (h : Heap) (t : Table) (key : Value) :
    lookUp h t key = (listing t).lookup (h.key key) := by
  rw [← OrderedMap.find_eq_lookup]
  exact (OrderedMap.find_map Entry.value _ _).symm

end Tables

open Tables

/-- The keys that pairs are filed under, with their values. -/
def Heap.filing (h : Heap) (pairs : List (Value × Value)) : List (HashKey × Value) :=
  pairs.map fun p => (h.key p.1, p.2)

theorem Heap.Retains.filing_eq {h h' : Heap} (g : h.Retains h') (hc : h.Closed)
    {pairs : List (Value × Value)} (hp : ∀ p ∈ pairs, h.HasText p.1) :
    h'.filing pairs = h.filing pairs :=
  List.map_congr_left fun p hmem => congrArg (·, p.2) (g.key_eq hc (hp p hmem))

/-- A table is what its history says, and its keys are filed under what they are. -/
structure Heap.Records (h : Heap) (past : History HashKey Value) (t : Table) : Prop where
  lists : past.Lists (listing t)
  hasText : ∀ e ∈ t.entries, h.HasText e.2.key
  filed : ∀ e ∈ t.entries, h.key e.2.key = e.1

namespace Heap.Records

variable {h h' : Heap} {past : History HashKey Value} {t : Table} {key value : Value}

theorem of_empty (hpast : past.Lists []) : h.Records past .empty where
  lists := hpast
  hasText _ he := by cases he
  filed _ he := by cases he

/-- Nothing happens to a table as long as its keys stay. -/
theorem of_keys (ht : h.Records past t) (hle : h.texts.size ≤ h'.texts.size)
    (hkeys : ∀ e ∈ t.entries, h'.key e.2.key = h.key e.2.key) : h'.Records past t where
  lists := ht.lists
  hasText e he := (ht.hasText e he).mono hle
  filed e he := (hkeys e he).trans (ht.filed e he)

theorem later (ht : h.Records past t) (hc : h.Closed) (g : h.Retains h') : h'.Records past t :=
  ht.of_keys g.texts.size_le fun e he => g.key_eq hc (ht.hasText e he)

theorem insert (ht : h.Records past t) {k : HashKey} (htext : h.HasText key)
    (hkey : h.key key = k) :
    h.Records (past ++ [.store k value]) (t.insert k ⟨key, value⟩) where
  lists := listing_insert t k _ ▸ ht.lists.store k value
  hasText := by
    intro e he
    rcases OrderedMap.mem_insert he with hold | rfl
    · exact ht.hasText e hold
    · exact htext
  filed := by
    intro e he
    rcases OrderedMap.mem_insert he with hold | rfl
    · exact ht.filed e hold
    · exact hkey

theorem erase (ht : h.Records past t) (k : HashKey) :
    h.Records (past ++ [.remove k]) (t.erase k) where
  lists := listing_erase t k ▸ ht.lists.remove k
  hasText e he := ht.hasText e ((OrderedMap.drop_sublist k _).subset he)
  filed e he := ht.filed e ((OrderedMap.drop_sublist k _).subset he)

theorem insertEntry (ht : h.Records past t) (hc : h.Closed) (hk : h.HasText key) :
    (h.insertEntry t key value).2.Records (past ++ [.store (h.key key) value])
      (h.insertEntry t key value).1 :=
  (ht.later hc (.entryKey h key)).insert (hasText_entryKey hk) (key_entryKey key)

theorem insertPairs (ht : h.Records past t) (hc : h.Closed) {pairs : List (Value × Value)}
    (hp : ∀ p ∈ pairs, h.HasText p.1) :
    h.Retains (h.insertPairs t pairs).2 ∧
      (h.insertPairs t pairs).2.Records (past ++ .ofPairs (h.filing pairs))
        (h.insertPairs t pairs).1 := by
  induction pairs generalizing h past t with
  | nil => exact ⟨.refl h, (List.append_nil past).symm ▸ ht⟩
  | cons p rest ih =>
    obtain ⟨hkey, hrest⟩ := List.forall_mem_cons.1 hp
    have g : h.Retains (h.insertEntry t p.1 p.2).2 := .entryKey h p.1
    obtain ⟨g', hall⟩ := ih (ht.insertEntry hc hkey) (g.closed hc)
      fun q hq => g.hasText (hrest q hq)
    refine ⟨g.trans g', ?_⟩
    rw [g.filing_eq hc hrest, List.append_assoc] at hall
    exact hall

/-- The pairs of a table are filed under what the table files them under. -/
theorem filing_pairs (ht : h.Records past t) : h.filing (pairs t) = listing t := by
  unfold filing pairs listing OrderedMap.values
  rw [List.map_map, List.map_map]
  exact List.map_congr_left fun e he => congrArg (·, e.2.value) (ht.filed e he)

theorem hasText_pairs (ht : h.Records past t) : ∀ p ∈ pairs t, h.HasText p.1 := by
  intro p hp
  obtain ⟨e, he, rfl⟩ := List.mem_map.1 hp
  obtain ⟨x, hx, rfl⟩ := List.mem_map.1 he
  exact ht.hasText x hx

end Heap.Records

/-! ## Writing into one table -/

theorem TableRef.index_ne {r s : TableRef} (hne : s ≠ r) : s.index ≠ r.index := by
  intro heq
  cases r
  cases s
  exact hne (congrArg TableRef.mk heq)

namespace Heap

variable {h h' : Heap} {r : TableRef} {past : History HashKey Value} {t : Table}

/-- One table was written or added, and it is what its history says. All others are as they were. -/
structure Writes (h : Heap) (r : TableRef) (past : History HashKey Value) (h' : Heap) : Prop where
  retains : h.Retains h'
  size_le : h.tables.size ≤ h'.tables.size
  others : ∀ s : TableRef, s.index < h'.tables.size → s ≠ r →
    s.index < h.tables.size ∧ h'.table s = h.table s
  live : r.index < h'.tables.size
  records : h'.Records past (h'.table r)

theorem writes_modifyTable {f : Table → Table} (hr : r.index < h.tables.size) (hc : h.Closed)
    (ht : h.Records past (f (h.table r))) : h.Writes r past (h.modifyTable r f) where
  retains := .modifyTable h r f
  size_le := Nat.le_of_eq (Store.size_modify h.tables r.index f).symm
  others s hs hne := ⟨by rwa [← Store.size_modify h.tables r.index f],
    Store.get_modify_of_ne (TableRef.index_ne hne) f⟩
  live := Nat.lt_of_lt_of_eq hr (Store.size_modify h.tables r.index f).symm
  records := by
    have hself : (h.modifyTable r f).table r = f (h.table r) := Store.get_modify_self hr f
    exact hself ▸ ht.later hc (.modifyTable h r f)

theorem writes_newTable (hc : h.Closed) (ht : h.Records past t) :
    h.Writes ⟨h.tables.size⟩ past (h.newTable t).2 where
  retains := .newTable h t
  size_le := (Store.Grows.push h.tables t).size_le
  others s hs hne := by
    have hlt : s.index < h.tables.size := by
      have hsize := Nat.lt_of_lt_of_eq hs (Store.size_push h.tables t)
      have hindex := TableRef.index_ne hne
      simp only at hindex
      omega
    exact ⟨hlt, Store.get_push_of_lt hlt t⟩
  live := Nat.lt_of_lt_of_eq (Nat.lt_succ_self _) (Store.size_push _ _).symm
  records := by
    have hself : (h.newTable t).2.table ⟨h.tables.size⟩ = t := Store.get_push_size _ _
    exact hself.symm ▸ ht.later hc (.newTable h t)

/-- Texts are added before. -/
theorem Writes.after {h₁ : Heap} (hw : h₁.Writes r past h') (g : h.Retains h₁)
    (htables : h₁.tables = h.tables) : h.Writes r past h' where
  retains := g.trans hw.retains
  size_le := htables ▸ hw.size_le
  others s hs hne := by
    obtain ⟨hlt, hsame⟩ := hw.others s hs hne
    exact ⟨htables ▸ hlt, hsame.trans (congrArg (·.get s.index) htables)⟩
  live := hw.live
  records := hw.records

end Heap

end Spinel
