import Spinel.Proofs.Heap.Containment
import Spinel.Proofs.Heap.Distinction

/-!
# Values with the same key

The key of a value is a tree: an array unfolds into the keys of its items, and where it is met again
inside of itself it is cut off and stands for itself. `Keyed` has the rules by which these trees are
made, and each value has exactly one tree by them, which is its key.

Of two arrays with the same tree, each makes the trees of its items inside of itself, and so inside
of other arrays. What carries over to their items is that some tree is a key of both, each inside of
arrays of its own (`Alike`). Values that are alike do not differ on the spot, and what an
access leads to in both is alike again, so that no sequence of accesses tells them apart
(`Heap.equal_of_key_eq`).
-/

namespace Spinel

theorem float_eq_of_toBits_eq {x y : Float} (hbits : x.toBits = y.toBits) : x = y := by
  obtain ⟨⟨_, _⟩⟩ := x
  obtain ⟨⟨_, _⟩⟩ := y
  cases hbits
  rfl

open Float.Model in
theorem float_beq_self {x : Float} (hx : x.isNaN = false) : (x == x) = true := by
  change (x.toModel.unpack.compare x.toModel.unpack == some .eq) = true
  change x.toModel.unpack.isNaN = false at hx
  cases hu : x.toModel.unpack with
  | infinity sign => cases sign <;> rfl
  | notANumber =>
    rw [hu] at hx
    cases hx
  | zero sign => rfl
  | finite sign mantissa exponent hm =>
    have hthen : (compare exponent exponent).then (compare mantissa mantissa) = .eq := by
      have hexp : compare exponent exponent = .eq := Std.ReflCmp.compare_self
      have hmant : compare mantissa mantissa = .eq := Std.ReflCmp.compare_self
      rw [hexp, hmant]
      rfl
    cases sign with
    | positive => exact beq_iff_eq.2 (congrArg some hthen)
    | negative => exact beq_iff_eq.2 (congrArg (fun o : Ordering => some o.swap) hthen)

namespace Heap

/-! ## What a value contains -/

/-- The items of an array are directly in it. -/
inductive Item (h : Heap) : Value → Value → Prop
  | intro {r : ListRef} {v : Value} (hv : v ∈ h.list r) : Item h (.array r) v

/-- A value contains itself and, if it is an array, what its items contain. -/
def Contains (h : Heap) : Value → Value → Prop := Relation.ReflTransGen h.Item

/-- No proc, and no float that is not a number. -/
def IsFilable : Value → Prop
  | .proc _ => False
  | .float x => x.isNaN = false
  | _ => True

/-- All that a value contains can be filed. -/
def Filable (h : Heap) (v : Value) : Prop := ∀ u, h.Contains v u → IsFilable u

section Filable

variable {h : Heap} {r : ListRef} {v : Value}

theorem Filable.isFilable (hv : h.Filable v) : IsFilable v := hv v .refl

theorem Filable.item (hr : h.Filable (.array r)) (hv : v ∈ h.list r) : h.Filable v :=
  fun u hu => hr u (hu.head (.intro hv))

/-- Where arrays hold nothing else, a value contains nothing else. -/
theorem filable_of_items (hitems : ∀ r, ∀ u ∈ h.list r, IsFilable u) (hv : IsFilable v) :
    h.Filable v := by
  intro u hu
  cases hu with
  | refl => exact hv
  | tail _ hitem =>
    cases hitem with
    | intro hmem => exact hitems _ u hmem

end Filable

/-! ## How keys are made -/

/-- The key of a value inside of the arrays `visiting`. An array that is not among them has the keys
of its items, which are made inside of it too. -/
inductive Keyed (h : Heap) : List ListRef → Value → HashKey → Prop
  | nil {visiting} : Keyed h visiting .nil .nil
  | bool {visiting b} : Keyed h visiting (.bool b) (.bool b)
  | int {visiting i} : Keyed h visiting (.int i) (.int i)
  | float {visiting x bits} (hx : x.toBits = bits) : Keyed h visiting (.float x) (.float bits)
  | symbol {visiting s} : Keyed h visiting (.symbol s) (.symbol s)
  | str {visiting r s} (hr : h.text r = s) : Keyed h visiting (.str r) (.str s)
  | again {visiting r} (hr : r ∈ visiting) : Keyed h visiting (.array r) (.identity (.list r))
  | array {visiting r} {keys : List HashKey} (hr : r ∉ visiting)
      (hsize : (h.list r).size = keys.length)
      (hitems : ∀ (i : Nat) v k, (h.list r)[i]? = some v → keys[i]? = some k →
        Keyed h (r :: visiting) v k) : Keyed h visiting (.array r) (.array keys)
  | range {visiting low high} : Keyed h visiting (.range low high) (.range low high)
  | hash {visiting r} : Keyed h visiting (.hash r) (.identity (.table r))
  | klass {visiting c} : Keyed h visiting (.klass c) (.identity (.klass c))
  | object {visiting r} : Keyed h visiting (.object r) (.identity (.object r))
  | proc {visiting c id} (hc : c.identity = id) : Keyed h visiting (.proc c) (.identity id)

variable {h : Heap} {visiting : List ListRef} {x y v : Value} {k k' : HashKey}

theorem Keyed.unique (hk : h.Keyed visiting v k) (hk' : h.Keyed visiting v k') : k = k' := by
  induction hk generalizing k' with
  | float hx =>
    cases hk' with
    | float hx' => rw [← hx, ← hx']
  | str hr =>
    cases hk' with
    | str hr' => rw [← hr, ← hr']
  | again hr =>
    cases hk' with
    | again => rfl
    | array hnew => exact absurd hr hnew
  | @array visiting r keys hnew hsize _ ih =>
    cases hk' with
    | again hr => exact absurd hr hnew
    | @array _ _ keys' _ hsize' hitems' =>
      apply congrArg HashKey.array
      apply List.ext_getElem (hsize.symm.trans hsize')
      intro i hi hi'
      have hitem : i < (h.list r).size := hsize ▸ hi
      apply ih i _ _ (Array.getElem?_eq_getElem hitem) (List.getElem?_eq_getElem hi)
      exact hitems' i _ _ (Array.getElem?_eq_getElem hitem) (List.getElem?_eq_getElem hi')
  | proc hc =>
    cases hk' with
    | proc hc' => rw [← hc, ← hc']
  | _ =>
    cases hk'
    rfl

theorem keyed_of_keyWithin {n : Nat} (hk : h.keyWithin n visiting v = some k) :
    h.Keyed visiting v k := by
  induction n using Nat.strongRecOn generalizing visiting v k with
  | ind n ih =>
  cases v with
  | array r =>
    by_cases hin : r ∈ visiting
    · rw [keyWithin_array_of_mem hin] at hk
      cases hk
      exact .again hin
    · rw [keyWithin_array_of_notMem hin, Option.map_eq_some_iff] at hk
      obtain ⟨keys, hkeys, rfl⟩ := hk
      rw [mapM_eq_some_iff] at hkeys
      apply Keyed.array hin
      · simpa using congrArg List.length hkeys
      · intro i u k hu hk
        have hkey := congrArg (·[i]?) hkeys
        simp only [List.getElem?_map, Array.getElem?_toList, hu, hk, Option.map_some,
          Option.some.injEq] at hkey
        cases n with
        | zero => cases hkey
        | succ n => exact ih n (Nat.lt_succ_self n) hkey
  | float x => cases n <;> exact Option.some.inj hk ▸ .float rfl
  | str r => cases n <;> exact Option.some.inj hk ▸ .str rfl
  | proc c => cases n <;> exact Option.some.inj hk ▸ .proc rfl
  | _ => cases n <;> exact Option.some.inj hk ▸ by constructor

theorem keyed_key (v : Value) : h.Keyed [] v (h.key v) :=
  keyed_of_keyWithin (keyWithin_of_le (Nat.le_refl _) v)

/-! ## Values with a key in common -/

/-- Values of which some tree is a key, each inside of arrays of its own. -/
structure Alike (h : Heap) (x y : Value) : Prop where
  left : h.Filable x
  right : h.Filable y
  exists_keyed : ∃ visiting visiting' k, h.Keyed visiting x k ∧ h.Keyed visiting' y k

namespace Alike

theorem not_differ (hxy : h.Alike x y) : ¬h.Differ x y := by
  obtain ⟨visiting, visiting', k, hx, hy⟩ := hxy.exists_keyed
  cases hx with
  | nil =>
    cases hy
    exact id
  | float hbits =>
    cases hy with
    | float hbits' =>
      obtain rfl := float_eq_of_toBits_eq (hbits.trans hbits'.symm)
      intro hd
      cases (float_beq_self hxy.left.isFilable).symm.trans hd
  | str hr =>
    cases hy with
    | str hr' => exact fun hd => hd (hr.trans hr'.symm)
  | array _ hsize =>
    cases hy with
    | array _ hsize' => exact fun hd => hd (hsize.trans hsize'.symm)
  | hash =>
    cases hy with
    | hash =>
      rintro (hsize | ⟨k, hk⟩)
      · exact hsize rfl
      · exact hk Iff.rfl
    | proc => exact hxy.right.isFilable.elim
  | proc => exact hxy.left.isFilable.elim
  | again | klass | object =>
    -- a leaf that stands for a cell is a key of this cell alone, procs apart
    cases hy
    case proc => exact hxy.right.isFilable.elim
    exact fun hd => hd rfl
  | bool | int | symbol | range =>
    cases hy
    exact fun hd => hd rfl

/-- What an access leads to in two values that are alike is alike. -/
theorem common {p q : Value × Value} (hp : h.Alike p.1 p.2) (hc : h.Common p q) :
    h.Alike q.1 q.2 := by
  obtain ⟨visiting, visiting', k, hx, hy⟩ := hp.exists_keyed
  cases hc with
  | @item a b i u v hne hu hv =>
    cases hx with
    | again =>
      cases hy
      exact absurd rfl hne
    | @array _ _ keys _ hsize hitems =>
      cases hy with
      | array _ _ hitems' =>
        obtain ⟨hi, -⟩ := Array.getElem?_eq_some_iff.1 hu
        have hk : keys[i]? = some (keys[i]) := List.getElem?_eq_getElem (hsize ▸ hi)
        have hu' := hp.left.item (Array.mem_of_getElem? hu)
        have hv' := hp.right.item (Array.mem_of_getElem? hv)
        exact ⟨hu', hv', _, _, _, hitems i u _ hu hk, hitems' i v _ hv hk⟩
  | entry hne =>
    cases hx
    cases hy
    exact absurd rfl hne

theorem of_accesses {p q : Value × Value} (hp : h.Alike p.1 p.2)
    (hpq : Relation.ReflTransGen h.Common p q) : h.Alike q.1 q.2 := by
  induction hpq with
  | refl => exact hp
  | tail _ hstep ih => exact ih.common hstep

theorem equal_eq_true (hxy : h.Alike x y) : h.equal x y = true := by
  rw [equal_eq_true_iff]
  intro d htold
  obtain ⟨q, hq, hd⟩ := exists_told_iff.1 ⟨d, htold⟩
  exact (hxy.of_accesses hq).not_differ hd

end Alike

/-- The rules make exactly one key of each value without procs and floats that are not numbers,
however arrays contain one another, and two such values that are filed under the same key are
equal. -/
theorem equal_of_key_eq (h : Heap) (x y : Value) (hx : h.Filable x) (hy : h.Filable y) :
    (∀ k, h.Keyed [] x k ↔ k = h.key x) ∧ (h.key x = h.key y → h.equal x y = true) := by
  constructor
  · intro k
    constructor
    · intro hk
      exact hk.unique (keyed_key x)
    · rintro rfl
      exact keyed_key x
  · intro hkey
    apply Alike.equal_eq_true
    exact ⟨hx, hy, [], [], h.key x, keyed_key x, hkey ▸ keyed_key y⟩

/-- Two arrays with equal texts that share an array which contains itself. -/
def sharing : Heap :=
  { texts := ⟨#["s", "s"]⟩
    lists := ⟨#[#[.array ⟨0⟩, .float 1.5], #[.array ⟨0⟩, .str ⟨0⟩], #[.array ⟨0⟩, .str ⟨1⟩]]⟩ }

theorem isFilable_sharing (r : ListRef) : ∀ v ∈ sharing.list r, IsFilable v := by
  have hlist : IsFilable (.array ⟨0⟩) := trivial
  have hfloat : IsFilable (.float 1.5) := by
    change (1.5 : Float).isNaN = false
    decide
  have hpair : ∀ {u : Value}, IsFilable u → ∀ v ∈ [.array ⟨0⟩, u], IsFilable v :=
    fun hu => List.forall_mem_cons.2 ⟨hlist, List.forall_mem_singleton.2 hu⟩
  intro v hv
  replace hv : v ∈ (sharing.list r).toList := Array.mem_toList_iff.2 hv
  have hr : r.index < 3 := index_lt_of_mem_list hv
  obtain ⟨i⟩ := r
  obtain rfl | rfl | rfl : i = 0 ∨ i = 1 ∨ i = 2 := by
    dsimp only at hr
    omega
  · exact hpair hfloat v hv
  · exact hpair (u := .str ⟨0⟩) trivial v hv
  · exact hpair (u := .str ⟨1⟩) trivial v hv

theorem equal_of_key_eq_sharing :
    sharing.Filable (.array ⟨1⟩) ∧ sharing.Filable (.array ⟨2⟩) ∧
      sharing.Keyed [] (.array ⟨1⟩) (sharing.key (.array ⟨1⟩)) ∧
      sharing.key (.array ⟨1⟩) = sharing.key (.array ⟨2⟩) ∧
      sharing.equal (.array ⟨1⟩) (.array ⟨2⟩) = true := by
  have hx : sharing.Filable (.array ⟨1⟩) := filable_of_items isFilable_sharing trivial
  have hy : sharing.Filable (.array ⟨2⟩) := filable_of_items isFilable_sharing trivial
  have hkey : sharing.key (.array ⟨1⟩) = sharing.key (.array ⟨2⟩) := rfl
  obtain ⟨hkeyed, hequal⟩ := equal_of_key_eq sharing (.array ⟨1⟩) (.array ⟨2⟩) hx hy
  exact ⟨hx, hy, (hkeyed _).2 rfl, hkey, hequal hkey⟩

end Heap

end Spinel
