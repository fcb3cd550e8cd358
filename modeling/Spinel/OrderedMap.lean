/-!
# Maps in insertion order

A finite map that lists its keys in the order in which they were first inserted. Writing under a
key that is there keeps its place; removing one keeps the order of the others.
-/

namespace Spinel

/-- A map as the list of its entries, each key once, in the order of insertion. -/
structure OrderedMap (κ α : Type) where
  entries : List (κ × α) := []
  nodup : (entries.map (·.1)).Nodup := by simp

namespace OrderedMap

variable {κ α : Type}

/-- The map without entries. -/
def empty : OrderedMap κ α := {}

instance : Inhabited (OrderedMap κ α) := ⟨empty⟩

/-- The keys in order. -/
def keys (m : OrderedMap κ α) : List κ := m.entries.map (·.1)

/-- The values in the order of their keys. -/
def values (m : OrderedMap κ α) : List α := m.entries.map (·.2)

def size (m : OrderedMap κ α) : Nat := m.entries.length

def isEmpty (m : OrderedMap κ α) : Bool := m.entries.isEmpty

variable [BEq κ]

/-- The value of the first entry with a key. -/
def find (k : κ) : List (κ × α) → Option α
  | [] => none
  | (k', a) :: rest => if k' == k then some a else find k rest

/-- Write in place, or at the end if the key is new. -/
def put (k : κ) (a : α) : List (κ × α) → List (κ × α)
  | [] => [(k, a)]
  | (k', a') :: rest => if k' == k then (k', a) :: rest else (k', a') :: put k a rest

/-- Leave out the first entry with a key. -/
def drop (k : κ) : List (κ × α) → List (κ × α)
  | [] => []
  | (k', a) :: rest => if k' == k then rest else (k', a) :: drop k rest

/-- The value under a key. -/
def get? (m : OrderedMap κ α) (k : κ) : Option α := find k m.entries

def contains (m : OrderedMap κ α) (k : κ) : Bool := (m.get? k).isSome

@[simp] theorem get?_empty (k : κ) : (empty : OrderedMap κ α).get? k = none := rfl

theorem drop_sublist (k : κ) (l : List (κ × α)) : (drop k l).Sublist l := by
  induction l with
  | nil => exact .slnil
  | cons e rest ih =>
    unfold drop
    split
    · exact List.sublist_cons_self _ _
    · exact ih.cons_cons _

/-- The map without an entry for `k`. -/
def erase (m : OrderedMap κ α) (k : κ) : OrderedMap κ α :=
  ⟨drop k m.entries, ((drop_sublist k m.entries).map _).nodup m.nodup⟩

variable [LawfulBEq κ]

theorem map_fst_put (k : κ) (a : α) (l : List (κ × α)) :
    (put k a l).map (·.1) = if k ∈ l.map (·.1) then l.map (·.1) else l.map (·.1) ++ [k] := by
  induction l with
  | nil => simp [put]
  | cons e rest ih =>
    obtain ⟨k', a'⟩ := e
    by_cases h : k' == k
    · have : k' = k := by simpa using h
      simp [put, this]
    · have hne : k ≠ k' := fun e => h (by simp [e])
      simp only [put, h, Bool.false_eq_true, if_false, List.map_cons, ih]
      by_cases hm : k ∈ rest.map (·.1)
      · simp [hm]
      · simp [hm, hne]

theorem nodup_put (k : κ) (a : α) {l : List (κ × α)} (hl : (l.map (·.1)).Nodup) :
    ((put k a l).map (·.1)).Nodup := by
  rw [map_fst_put]
  split
  · exact hl
  · next hk =>
    refine List.nodup_append.2 ⟨hl, by simp, ?_⟩
    intro k' hk' k'' hk''
    rw [List.mem_singleton.1 hk'']
    exact fun heq => hk (heq ▸ hk')

theorem find_put_self (k : κ) (a : α) (l : List (κ × α)) : find k (put k a l) = some a := by
  induction l with
  | nil => simp [put, find]
  | cons e rest ih =>
    obtain ⟨k', a'⟩ := e
    by_cases h : k' == k
    · simp [put, find, h]
    · simp [put, find, h, ih]

theorem find_put_of_ne {k k' : κ} (h : k' ≠ k) (a : α) (l : List (κ × α)) :
    find k' (put k a l) = find k' l := by
  induction l with
  | nil =>
    have : (k == k') = false := by simp [Ne.symm h]
    simp [put, find, this]
  | cons e rest ih =>
    obtain ⟨k'', a''⟩ := e
    by_cases hk : k'' == k
    · have hk' : (k'' == k') = false := by
        have : k'' = k := by simpa using hk
        simp [this, Ne.symm h]
      simp [put, find, hk, hk']
    · simp [put, find, hk, ih]

theorem find_isSome_iff (k : κ) (l : List (κ × α)) :
    (find k l).isSome ↔ k ∈ l.map (·.1) := by
  induction l with
  | nil => simp [find]
  | cons e rest ih =>
    obtain ⟨k', a⟩ := e
    by_cases h : k' == k
    · have : k' = k := by simpa using h
      simp [find, this]
    · have : k ≠ k' := fun e => h (by simp [e])
      simp [find, h, this, ih]

/-- The map with `a` under `k`. -/
def insert (m : OrderedMap κ α) (k : κ) (a : α) : OrderedMap κ α :=
  ⟨put k a m.entries, nodup_put k a m.nodup⟩

/-- The map of some pairs, of which later ones win. -/
def ofList (pairs : List (κ × α)) : OrderedMap κ α :=
  pairs.foldl (fun m (k, a) => m.insert k a) empty

/-- What was written is read back. -/
@[simp] theorem get?_insert_self (m : OrderedMap κ α) (k : κ) (a : α) :
    (m.insert k a).get? k = some a :=
  find_put_self k a m.entries

/-- Writing under one key leaves all others as they are. -/
theorem get?_insert_of_ne (m : OrderedMap κ α) {k k' : κ} (h : k' ≠ k) (a : α) :
    (m.insert k a).get? k' = m.get? k' :=
  find_put_of_ne h a m.entries

theorem contains_iff (m : OrderedMap κ α) (k : κ) : m.contains k = true ↔ k ∈ m.keys :=
  find_isSome_iff k m.entries

/-- A key that is there keeps its place, a new one comes last. -/
theorem keys_insert (m : OrderedMap κ α) (k : κ) (a : α) :
    (m.insert k a).keys = if k ∈ m.keys then m.keys else m.keys ++ [k] :=
  map_fst_put k a m.entries

end OrderedMap

end Spinel
