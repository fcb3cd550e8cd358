import Mathlib.Data.List.Perm.Subperm
import Mathlib.Data.List.ProdSigma
import Mathlib.Logic.Relation
import Spinel.Proofs.Heap.References

/-!
# Equality of collections that contain themselves

Two values are told apart if some sequence of accesses that both allow leads to two that differ on
the spot. `Heap.equal` denies equality of exactly those, although it takes each pair of collections
that is being compared for equal.

* **Differences**: `Differ` and `Common` say what differs on the spot and where one gets from a pair
  of collections; `Told` counts the accesses to the next difference.
* **Soundness**: where equality is not affirmed there is a difference, by induction on the depth.
* **Completeness**: equality of a pair that is told apart by `d` accesses, and by no fewer, is not
  affirmed within pairs that are not told apart by `d`: these cannot have cut the way to the
  difference short.
* **Depth**: the pairs within which a comparison is made are all different, so there are at most
  `Heap.pairCount` of them, and that depth answers.
-/

namespace Spinel

/-! ## Comparison of floats -/

open Float.Model in
theorem compare_swap (x y : UnpackedFloat) : y.compare x = (x.compare y).map (·.swap) := by
  cases x with
  | infinity s =>
    cases y with
    | infinity s' => cases s <;> cases s' <;> rfl
    | notANumber => cases s <;> rfl
    | zero s' => cases s <;> cases s' <;> rfl
    | finite s' m e h => cases s <;> cases s' <;> rfl
  | notANumber =>
    cases y with
    | infinity s' => cases s' <;> rfl
    | notANumber => rfl
    | zero s' => rfl
    | finite s' m e h => cases s' <;> rfl
  | zero s =>
    cases y with
    | infinity s' => cases s' <;> rfl
    | notANumber => rfl
    | zero s' => rfl
    | finite s' m e h => cases s' <;> rfl
  | finite s m e h =>
    cases y with
    | infinity s' => cases s <;> cases s' <;> rfl
    | notANumber => cases s <;> rfl
    | zero s' => cases s <;> rfl
    | finite s' m' e' h' =>
      have hexp : compare e' e = (compare e e').swap := Std.OrientedCmp.eq_swap
      have hmant : compare m' m = (compare m m').swap := Std.OrientedCmp.eq_swap
      have hthen : (compare e' e).then (compare m' m) =
          ((compare e e').then (compare m m')).swap := by
        rw [hexp, hmant, Ordering.swap_then]
      cases s with
      | positive =>
        cases s' with
        | positive => exact congrArg some hthen
        | negative => rfl
      | negative =>
        cases s' with
        | positive => rfl
        | negative => exact congrArg (fun o => some o.swap) hthen

theorem float_beq_comm (a b : Float) : (a == b) = (b == a) := by
  change (a.toModel.unpack.compare b.toModel.unpack == some .eq) =
    (b.toModel.unpack.compare a.toModel.unpack == some .eq)
  rw [compare_swap a.toModel.unpack]
  cases a.toModel.unpack.compare b.toModel.unpack with
  | none => rfl
  | some o => cases o <;> rfl

namespace Heap

variable {h : Heap}

/-! ## Differences -/

/-- Whether two values differ on the spot: in kind, in length, in what stands under one of them, or,
where they are no collections, in themselves. -/
def Differ (h : Heap) : Value → Value → Prop
  | .nil, .nil => False
  | .bool a, .bool b => a ≠ b
  | .int a, .int b => a ≠ b
  | .float a, .float b => (a == b) = false
  | .int a, .float b => (a.toFloat == b) = false
  | .float a, .int b => (a == b.toFloat) = false
  | .symbol a, .symbol b => a ≠ b
  | .str a, .str b => h.text a ≠ h.text b
  | .range a b, .range c d => (a, b) ≠ (c, d)
  | .array a, .array b => (h.list a).size ≠ (h.list b).size
  | .hash a, .hash b =>
    (h.table a).size ≠ (h.table b).size ∨ ∃ k, ¬(k ∈ (h.table a).keys ↔ k ∈ (h.table b).keys)
  | .klass a, .klass b => a ≠ b
  | .object a, .object b => a ≠ b
  | .proc a, .proc b => a.identity ≠ b.identity
  | _, _ => True

/-- An access that two different collections of one kind have in common, and what it leads to. -/
inductive Common (h : Heap) : Value × Value → Value × Value → Prop where
  | item {a b : ListRef} {i : Nat} {x y : Value} (hne : a ≠ b) (hx : (h.list a)[i]? = some x)
      (hy : (h.list b)[i]? = some y) : Common h (.array a, .array b) (x, y)
  | entry {a b : TableRef} {k : HashKey} {e e' : Entry} (hne : a ≠ b)
      (he : (h.table a).get? k = some e) (he' : (h.table b).get? k = some e') :
      Common h (.hash a, .hash b) (e.value, e'.value)

/-- A difference that `d` accesses lead to. -/
def Told (h : Heap) : Nat → Value × Value → Prop
  | 0, p => h.Differ p.1 p.2
  | d + 1, p => ∃ q, h.Common p q ∧ h.Told d q

theorem exists_told_iff {p : Value × Value} :
    (∃ d, h.Told d p) ↔ ∃ q, Relation.ReflTransGen h.Common p q ∧ h.Differ q.1 q.2 := by
  constructor
  · rintro ⟨d, hd⟩
    induction d generalizing p with
    | zero => exact ⟨p, .refl, hd⟩
    | succ d ih =>
      obtain ⟨q, hpq, hq⟩ := hd
      obtain ⟨r, hqr, hr⟩ := ih hq
      exact ⟨r, hqr.head hpq, hr⟩
  · rintro ⟨q, hpq, hq⟩
    induction hpq using Relation.ReflTransGen.head_induction_on with
    | refl => exact ⟨0, hq⟩
    | head hstep _ ih =>
      obtain ⟨d, hd⟩ := ih
      exact ⟨d + 1, _, hstep, hd⟩

theorem Differ.symm {v w : Value} (hd : h.Differ v w) : h.Differ w v := by
  cases v <;> cases w <;> try trivial
  case hash.hash =>
    rcases hd with hsize | ⟨k, hk⟩
    · exact .inl hsize.symm
    · exact .inr ⟨k, fun hiff => hk hiff.symm⟩
  case float.float | int.float | float.int => exact (float_beq_comm _ _).trans hd
  all_goals exact Ne.symm hd

theorem Common.symm {v w x y : Value} (hc : h.Common (v, w) (x, y)) : h.Common (w, v) (y, x) := by
  cases hc with
  | item hne hx hy => exact .item hne.symm hy hx
  | entry hne he he' => exact .entry hne.symm he' he

theorem Told.symm {d : Nat} {v w : Value} (ht : h.Told d (v, w)) : h.Told d (w, v) := by
  induction d generalizing v w with
  | zero => exact Differ.symm ht
  | succ d ih =>
    obtain ⟨⟨x, y⟩, hc, hd⟩ := ht
    exact ⟨(y, x), hc.symm, ih hd⟩

/-! ## Collections that are being compared -/

/-- What a pair of collections is known by while it is being compared. -/
def pairOf : Value × Value → Option (Identity × Identity)
  | (.array a, .array b) => some (.list a, .list b)
  | (.hash a, .hash b) => some (.table a, .table b)
  | _ => none

theorem pairOf_injective {p q : Value × Value} {i : Identity × Identity} (hp : pairOf p = some i)
    (hq : pairOf q = some i) : p = q := by
  unfold pairOf at hp hq
  split at hp <;> cases hp <;> split at hq <;> cases hq <;> rfl

/-- The pairs of arrays and of hashes of a heap. -/
def collectionPairs (h : Heap) : List (Identity × Identity) :=
  (List.range h.lists.size ×ˢ List.range h.lists.size).map
      (fun ij => (.list ⟨ij.1⟩, .list ⟨ij.2⟩)) ++
    (List.range h.tables.size ×ˢ List.range h.tables.size).map
      (fun ij => (.table ⟨ij.1⟩, .table ⟨ij.2⟩))

theorem length_collectionPairs : h.collectionPairs.length = h.pairCount := by
  simp [collectionPairs, pairCount, List.length_product]

/-- Depth `n` is enough within the comparison of the pairs `comparing`. -/
structure Fits (h : Heap) (n : Nat) (comparing : List (Identity × Identity)) : Prop where
  nodup : comparing.Nodup
  live : comparing ⊆ h.collectionPairs
  bound : h.pairCount ≤ n + comparing.length

theorem fits_nil {n : Nat} (hn : h.pairCount ≤ n) : h.Fits n [] :=
  ⟨List.nodup_nil, List.nil_subset _, hn⟩

theorem list_mem_pairs {a b : ListRef} (ha : 0 < (h.list a).size) (hb : 0 < (h.list b).size) :
    (Identity.list a, Identity.list b) ∈ h.collectionPairs := by
  have hlt : ∀ r : ListRef, 0 < (h.list r).size → r.index < h.lists.size := by
    intro r hr
    by_contra hge
    rw [list, Store.get_of_size_le (Nat.le_of_not_lt hge)] at hr
    exact Nat.lt_irrefl 0 hr
  refine List.mem_append_left _ (List.mem_map.2 ⟨(a.index, b.index), ?_, rfl⟩)
  exact List.mem_product.2 ⟨List.mem_range.2 (hlt a ha), List.mem_range.2 (hlt b hb)⟩

theorem table_mem_pairs {a b : TableRef} (ha : 0 < (h.table a).size) (hb : 0 < (h.table b).size) :
    (Identity.table a, Identity.table b) ∈ h.collectionPairs := by
  have hlt : ∀ r : TableRef, 0 < (h.table r).size → r.index < h.tables.size := by
    intro r hr
    by_contra hge
    rw [table, Store.get_of_size_le (Nat.le_of_not_lt hge)] at hr
    exact Nat.lt_irrefl 0 hr
  refine List.mem_append_right _ (List.mem_map.2 ⟨(a.index, b.index), ?_, rfl⟩)
  exact List.mem_product.2 ⟨List.mem_range.2 (hlt a ha), List.mem_range.2 (hlt b hb)⟩

variable {n : Nat} {comparing : List (Identity × Identity)} {i : Identity × Identity}

theorem Fits.pos (hf : h.Fits n comparing) (hi : i ∈ h.collectionPairs) (hnew : i ∉ comparing) :
    0 < n := by
  have hnodup : (i :: comparing).Nodup := List.nodup_cons.2 ⟨hnew, hf.nodup⟩
  have hsub : i :: comparing ⊆ h.collectionPairs := List.cons_subset.2 ⟨hi, hf.live⟩
  have hle : (i :: comparing).length ≤ h.collectionPairs.length :=
    (List.subperm_of_subset hnodup hsub).length_le
  have hbound := hf.bound
  rw [length_collectionPairs, List.length_cons] at hle
  omega

theorem Fits.cons (hf : h.Fits (n + 1) comparing) (hi : i ∈ h.collectionPairs)
    (hnew : i ∉ comparing) : h.Fits n (i :: comparing) := by
  have hbound := hf.bound
  refine ⟨List.nodup_cons.2 ⟨hnew, hf.nodup⟩, List.cons_subset.2 ⟨hi, hf.live⟩, ?_⟩
  rw [List.length_cons]
  omega

/-! ## One level of the comparison -/

theorem Common.mem_pairs {p q : Value × Value} (hc : h.Common p q) :
    ∃ i, pairOf p = some i ∧ i ∈ h.collectionPairs := by
  cases hc with
  | item hne hx hy =>
    obtain ⟨ha, -⟩ := Array.getElem?_eq_some_iff.1 hx
    obtain ⟨hb, -⟩ := Array.getElem?_eq_some_iff.1 hy
    exact ⟨_, rfl, list_mem_pairs (by omega) (by omega)⟩
  | entry hne he he' =>
    exact ⟨_, rfl, table_mem_pairs (List.length_pos_of_mem (OrderedMap.get?_eq_some_iff.1 he))
      (List.length_pos_of_mem (OrderedMap.get?_eq_some_iff.1 he'))⟩

theorem mem_zip_toList_iff {xs ys : Array Value} {q : Value × Value} :
    q ∈ xs.toList.zip ys.toList ↔ ∃ i : Nat, xs[i]? = some q.1 ∧ ys[i]? = some q.2 := by
  simp only [List.mem_iff_getElem?, List.getElem?_zip_eq_some, Array.getElem?_toList]

/-- Comparison of what is in the pair `i`, where depth `n` is left to the pair. -/
def equalInside (h : Heap) (comparing : List (Identity × Identity)) (i : Identity × Identity) :
    Nat → Value × Value → Option Bool
  | 0, _ => none
  | n + 1, q => h.equalWithin n (i :: comparing) q.1 q.2

theorem equalWithin_array (a b : ListRef) :
    h.equalWithin n comparing (.array a) (.array b) =
      if a == b || comparing.contains (.list a, .list b) then some true
      else if (h.list a).size != (h.list b).size then some false
      else ((h.list a).toList.zip (h.list b).toList).allM
        (h.equalInside comparing (.list a, .list b) n) := by
  cases n <;> rfl

theorem equalWithin_hash (a b : TableRef) :
    h.equalWithin n comparing (.hash a) (.hash b) =
      if a == b || comparing.contains (.table a, .table b) then some true
      else if (h.table a).size != (h.table b).size then some false
      else (h.table a).entries.allM fun (k, e) =>
        match (h.table b).get? k with
        | none => some false
        | some e' => h.equalInside comparing (.table a, .table b) n (e.value, e'.value) := by
  cases n <;> rfl

variable (n comparing) in
/-- Values that are no two collections of one kind are compared on the spot. -/
theorem equalWithin_of_pairOf_eq_none {p : Value × Value} (hp : pairOf p = none) :
    ∃ b, h.equalWithin n comparing p.1 p.2 = some b ∧ (b = true ↔ ¬h.Differ p.1 p.2) := by
  obtain ⟨v, w⟩ := p
  cases v <;> cases w <;> simp_all [pairOf, equalWithin, Differ]

section AllM

variable {α : Type} {f : α → Option Bool} {xs : List α}

theorem allM_eq_some_true_iff : xs.allM f = some true ↔ ∀ x ∈ xs, f x = some true := by
  induction xs with
  | nil => simp
  | cons x xs ih =>
    rw [List.allM_cons, List.forall_mem_cons, ← ih]
    cases hx : f x with
    | none => simp
    | some b => cases b <;> simp

theorem exists_allM_eq_some (hf : ∀ x ∈ xs, ∃ b, f x = some b) : ∃ b, xs.allM f = some b := by
  induction xs with
  | nil => exact ⟨true, rfl⟩
  | cons x xs ih =>
    rw [List.forall_mem_cons] at hf
    obtain ⟨⟨b, hb⟩, hrest⟩ := hf
    rw [List.allM_cons, hb]
    cases b with
    | false => exact ⟨false, rfl⟩
    | true => exact ih hrest

end AllM

/-- Of two hashes of one size that do not have the same keys, the first has one that the second
lacks. -/
theorem exists_missing_key {t t' : Table} (hsize : t.size = t'.size)
    {k : HashKey} (hk : ¬(k ∈ t.keys ↔ k ∈ t'.keys)) : ∃ k ∈ t.keys, k ∉ t'.keys := by
  by_contra hall
  push Not at hall
  have hlen : t'.keys.length ≤ t.keys.length := by
    simpa [OrderedMap.keys, OrderedMap.size] using Nat.le_of_eq hsize.symm
  exact hk ((List.subperm_of_subset t.nodup hall).perm_of_length_le hlen).mem_iff

theorem equalWithin_array_eq_some_true_iff {a b : ListRef} :
    h.equalWithin n comparing (.array a) (.array b) = some true ↔
      (Identity.list a, Identity.list b) ∈ comparing ∨ ¬h.Differ (.array a) (.array b) ∧
        ∀ q, h.Common (.array a, .array b) q →
          h.equalInside comparing (.list a, .list b) n q = some true := by
  rw [equalWithin_array]
  by_cases hmem : (Identity.list a, Identity.list b) ∈ comparing
  · simp [hmem]
  by_cases hab : a = b
  · subst hab
    have hnone : ∀ q, ¬h.Common (.array a, .array a) q := by
      rintro q ⟨hne, -, -⟩
      exact hne rfl
    simp [Differ, hnone]
  rw [if_neg (by simp [hmem, hab])]
  by_cases hsize : (h.list a).size = (h.list b).size
  · rw [if_neg (by simp [hsize]), allM_eq_some_true_iff]
    constructor
    · refine fun hall => .inr ⟨fun hd => hd hsize, fun q hc => ?_⟩
      cases hc with
      | item _ hx hy => exact hall _ (mem_zip_toList_iff.2 ⟨_, hx, hy⟩)
    · intro hin q hq
      obtain ⟨i, hx, hy⟩ := mem_zip_toList_iff.1 hq
      exact (hin.resolve_left hmem).2 q (.item hab hx hy)
  · simp [hmem, hsize, Differ]

theorem equalWithin_hash_eq_some_true_iff {a b : TableRef} :
    h.equalWithin n comparing (.hash a) (.hash b) = some true ↔
      (Identity.table a, Identity.table b) ∈ comparing ∨ ¬h.Differ (.hash a) (.hash b) ∧
        ∀ q, h.Common (.hash a, .hash b) q →
          h.equalInside comparing (.table a, .table b) n q = some true := by
  rw [equalWithin_hash]
  by_cases hmem : (Identity.table a, Identity.table b) ∈ comparing
  · simp [hmem]
  by_cases hab : a = b
  · subst hab
    have hnone : ∀ q, ¬h.Common (.hash a, .hash a) q := by
      rintro q ⟨⟩
      contradiction
    simp [Differ, hnone]
  rw [if_neg (by simp [hmem, hab])]
  by_cases hsize : (h.table a).size = (h.table b).size
  · rw [if_neg (by simp [hsize]), allM_eq_some_true_iff]
    constructor
    · intro hall
      have hkeys : ∀ k ∈ (h.table a).keys, k ∈ (h.table b).keys := by
        intro k hk
        obtain ⟨e, he⟩ := OrderedMap.exists_get?_of_mem_keys hk
        by_contra hkb
        have hfalse := hall (k, e) (OrderedMap.get?_eq_some_iff.1 he)
        simp [OrderedMap.get?_eq_none_iff.2 hkb] at hfalse
      refine .inr ⟨?_, fun q hc => ?_⟩
      · rintro (hd | ⟨k, hd⟩)
        · exact hd hsize
        · obtain ⟨k, hka, hkb⟩ := exists_missing_key hsize hd
          exact hkb (hkeys k hka)
      · cases hc with
        | entry _ he he' =>
          have htrue := hall _ (OrderedMap.get?_eq_some_iff.1 he)
          simpa only [he'] using htrue
    · rintro hin ⟨k, e⟩ hentry
      obtain ⟨hd, hcommon⟩ := hin.resolve_left hmem
      have hkeys : k ∈ (h.table b).keys := by
        by_contra hkb
        exact hd (.inr ⟨k, fun hiff => hkb (hiff.1 (List.mem_map_of_mem hentry))⟩)
      obtain ⟨e', he'⟩ := OrderedMap.exists_get?_of_mem_keys hkeys
      have he : (h.table a).get? k = some e := OrderedMap.get?_eq_some_iff.2 hentry
      simpa only [he'] using hcommon _ (.entry hab he he')
  · simp [hmem, hsize, Differ]

/-- A comparison of two collections of one kind is affirmed if it is under way already, or if they
do not differ and what stands in both in the same place is equal. -/
theorem equalWithin_eq_some_true_iff {p : Value × Value} (hp : pairOf p = some i) :
    h.equalWithin n comparing p.1 p.2 = some true ↔
      i ∈ comparing ∨ ¬h.Differ p.1 p.2 ∧
        ∀ q, h.Common p q → h.equalInside comparing i n q = some true := by
  unfold pairOf at hp
  split at hp <;> cases hp
  · exact equalWithin_array_eq_some_true_iff
  · exact equalWithin_hash_eq_some_true_iff

/-! ## Soundness and completeness -/

/-- Where equality is not affirmed, there is a difference on the spot, or equality of what an access
leads to in both is not affirmed. -/
theorem differ_or_common_of_equalWithin {p : Value × Value}
    (hne : h.equalWithin n comparing p.1 p.2 ≠ some true) :
    h.Differ p.1 p.2 ∨ ∃ i q, pairOf p = some i ∧ i ∉ comparing ∧ h.Common p q ∧
      h.equalInside comparing i n q ≠ some true := by
  cases hp : pairOf p with
  | none =>
    obtain ⟨b, hb, hiff⟩ := equalWithin_of_pairOf_eq_none n comparing hp
    rw [hb, Ne, Option.some_inj, hiff, not_not] at hne
    exact .inl hne
  | some i =>
    rw [Ne, equalWithin_eq_some_true_iff hp, not_or, not_and_or, not_not, not_forall] at hne
    obtain ⟨hnew, hd | ⟨q, hq⟩⟩ := hne
    · exact .inl hd
    · rw [Classical.not_imp] at hq
      exact .inr ⟨i, q, rfl, hnew, hq.1, hq.2⟩

theorem exists_told_of_equalWithin {p : Value × Value} (hfits : h.Fits n comparing)
    (hne : h.equalWithin n comparing p.1 p.2 ≠ some true) : ∃ d, h.Told d p := by
  induction n using Nat.strongRecOn generalizing comparing p with
  | ind n ih =>
    obtain hd | ⟨i, q, hp, hnew, hc, hq⟩ := differ_or_common_of_equalWithin hne
    · exact ⟨0, hd⟩
    · obtain ⟨j, hj, hmem⟩ := hc.mem_pairs
      cases hp.symm.trans hj
      obtain ⟨m, rfl⟩ : ∃ m, n = m + 1 := Nat.exists_eq_add_one.2 (hfits.pos hmem hnew)
      obtain ⟨d, hd⟩ := ih m (Nat.lt_succ_self m) (hfits.cons hmem hnew) hq
      exact ⟨d + 1, q, hc, hd⟩

theorem equalWithin_of_told {d : Nat} {p : Value × Value}
    (hquiet : ∀ q i, pairOf q = some i → i ∈ comparing → ∀ e ≤ d, ¬h.Told e q) (ht : h.Told d p) :
    h.equalWithin n comparing p.1 p.2 ≠ some true := by
  induction d using Nat.strongRecOn generalizing n comparing p with
  | ind d ih =>
    by_cases hless : ∃ e < d, h.Told e p
    · obtain ⟨e, hed, he⟩ := hless
      exact ih e hed (fun q i hq hi e' he' => hquiet q i hq hi e' (by omega)) he
    intro htrue
    cases hp : pairOf p with
    | none =>
      obtain ⟨b, hb, hiff⟩ := equalWithin_of_pairOf_eq_none n comparing hp
      rw [hb, Option.some_inj, hiff] at htrue
      cases d with
      | zero => exact htrue ht
      | succ d =>
        obtain ⟨q, hc, -⟩ := ht
        obtain ⟨i, hi, -⟩ := hc.mem_pairs
        cases hp.symm.trans hi
    | some i =>
      have hnew : i ∉ comparing := fun hi => hquiet p i hp hi d (Nat.le_refl d) ht
      obtain ⟨hsame, hall⟩ := ((equalWithin_eq_some_true_iff hp).1 htrue).resolve_left hnew
      cases d with
      | zero => exact hsame ht
      | succ d =>
        obtain ⟨q, hc, hq⟩ := ht
        cases n with
        | zero => cases hall q hc
        | succ n =>
          refine ih d (Nat.lt_succ_self d) ?_ hq (hall q hc)
          intro q' j hq' hj e he
          rcases List.mem_cons.1 hj with rfl | hj
          · exact pairOf_injective hp hq' ▸ fun ht' => hless ⟨e, Nat.lt_succ_of_le he, ht'⟩
          · exact hquiet q' j hq' hj e (Nat.le_succ_of_le he)

/-! ## Depth -/

/-- A comparison is answered if those that it comes down to are. -/
theorem exists_equalWithin_of_inside {p : Value × Value} (hp : pairOf p = some i)
    (hin : i ∉ comparing → ∀ q, h.Common p q → ∃ b, h.equalInside comparing i n q = some b) :
    ∃ b, h.equalWithin n comparing p.1 p.2 = some b := by
  unfold pairOf at hp
  split at hp <;> cases hp
  · rw [equalWithin_array]
    split
    · exact ⟨true, rfl⟩
    · next hnew =>
      simp only [Bool.or_eq_true, beq_iff_eq, List.contains_iff_mem, not_or] at hnew
      split
      · exact ⟨false, rfl⟩
      · apply exists_allM_eq_some
        intro q hq
        obtain ⟨j, hx, hy⟩ := mem_zip_toList_iff.1 hq
        exact hin hnew.2 q (.item hnew.1 hx hy)
  · next a b =>
    rw [equalWithin_hash]
    split
    · exact ⟨true, rfl⟩
    · next hnew =>
      simp only [Bool.or_eq_true, beq_iff_eq, List.contains_iff_mem, not_or] at hnew
      split
      · exact ⟨false, rfl⟩
      · apply exists_allM_eq_some
        rintro ⟨k, e⟩ hentry
        have he : (h.table a).get? k = some e := OrderedMap.get?_eq_some_iff.2 hentry
        cases he' : (h.table b).get? k with
        | none => exact ⟨false, by simp only [he']⟩
        | some e' =>
          obtain ⟨same, hsame⟩ := hin hnew.2 _ (.entry hnew.1 he he')
          exact ⟨same, by simp only [he', hsame]⟩

/-- The depth allowed is never used up. -/
theorem exists_equalWithin_eq_some {p : Value × Value} (hfits : h.Fits n comparing) :
    ∃ b, h.equalWithin n comparing p.1 p.2 = some b := by
  induction n using Nat.strongRecOn generalizing comparing p with
  | ind n ih =>
    cases hp : pairOf p with
    | none =>
      obtain ⟨b, hb, -⟩ := equalWithin_of_pairOf_eq_none (h := h) n comparing hp
      exact ⟨b, hb⟩
    | some i =>
      refine exists_equalWithin_of_inside hp fun hnew q hc => ?_
      obtain ⟨j, hj, hmem⟩ := hc.mem_pairs
      cases hp.symm.trans hj
      obtain ⟨m, rfl⟩ : ∃ m, n = m + 1 := Nat.exists_eq_add_one.2 (hfits.pos hmem hnew)
      exact ih m (Nat.lt_succ_self m) (hfits.cons hmem hnew)

theorem equalWithin_nil_eq_some_true_iff (hn : h.pairCount ≤ n) {v w : Value} :
    h.equalWithin n [] v w = some true ↔ ∀ d, ¬h.Told d (v, w) := by
  constructor
  · intro htrue d hd
    exact equalWithin_of_told (p := (v, w)) (fun _ _ _ hi => by cases hi) hd htrue
  · intro hall
    by_contra hne
    obtain ⟨d, hd⟩ := exists_told_of_equalWithin (p := (v, w)) (fits_nil hn) hne
    exact hall d hd

theorem equalWithin_pairCount (v w : Value) :
    h.equalWithin h.pairCount [] v w = some (h.equal v w) := by
  obtain ⟨b, hb⟩ := exists_equalWithin_eq_some (p := (v, w)) (fits_nil (Nat.le_refl h.pairCount))
  rw [equal, hb]
  rfl

theorem equal_eq_true_iff {v w : Value} : h.equal v w = true ↔ ∀ d, ¬h.Told d (v, w) := by
  rw [← equalWithin_nil_eq_some_true_iff (Nat.le_refl _), equalWithin_pairCount, Option.some_inj]

/-- Comparison of values in heaps with cycles. It ends: a depth of as many pairs of collections as
there are answers, and so does any greater one, in the same way. It denies equality of just those
values that differ where some sequence of accesses leads to in both, and the order of the two does
not matter. -/
theorem equal_eq_false_iff_differ_and_comm (x y : Value) :
    (∀ n, h.pairCount ≤ n → h.equalWithin n [] x y = some (h.equal x y)) ∧
      (h.equal x y = false ↔
        ∃ x' y', Relation.ReflTransGen h.Common (x, y) (x', y') ∧ h.Differ x' y') ∧
      h.equal x y = h.equal y x := by
  refine ⟨fun n hn => ?_, ?_, ?_⟩
  · obtain ⟨b, hb⟩ := exists_equalWithin_eq_some (p := (x, y)) (fits_nil hn)
    have hiff : b = true ↔ h.equal x y = true := by
      rw [equal_eq_true_iff, ← equalWithin_nil_eq_some_true_iff hn, hb, Option.some_inj]
    rw [hb, Bool.eq_iff_iff.2 hiff]
  · rw [← Bool.not_eq_true, equal_eq_true_iff, not_forall_not, exists_told_iff]
    exact ⟨fun ⟨q, hq⟩ => ⟨q.1, q.2, hq⟩, fun ⟨x', y', hq⟩ => ⟨(x', y'), hq⟩⟩
  · rw [Bool.eq_iff_iff, equal_eq_true_iff, equal_eq_true_iff]
    exact forall_congr' fun d => not_congr ⟨Told.symm, Told.symm⟩

/-- Two arrays that contain each other are equal. -/
example : ({ lists := ⟨#[#[.array ⟨1⟩], #[.array ⟨0⟩]]⟩ } : Heap).equal (.array ⟨0⟩) (.array ⟨1⟩) =
    true := by
  decide

end Heap

end Spinel
