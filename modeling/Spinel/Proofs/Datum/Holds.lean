import Spinel.Proofs.Datum.Text
import Spinel.Proofs.Heap.Containment
import Spinel.Proofs.Heap.Distinction
import Spinel.Proofs.Heap.Growth

/-!
# Data on the heap

`d.Holds h v` says that the value `v` is the datum `d` on the heap `h`; since data are finite, such
values do not contain themselves. A hash is found under keys that were taken when its entries were
made. `Heap.Filed` says that these are still the keys of what they were taken from, which is so
unless an array or a string in a key was changed since.

Values that hold data have one datum each (`Datum.Holds.unique`), their keys are those of the data
(`Datum.Holds.key_eq`), and two that hold the same datum and are filed are equal
(`Datum.FiledAs.equal`).
-/

namespace Spinel

namespace Datum

mutual

/-- The value is the datum, where `P` holds of the keys that entries are filed under and of the data
that stand there. -/
def HoldsWith (h : Heap) (P : HashKey → Datum → Prop) : Datum → Value → Prop
  | .nil, v => v = .nil
  | .bool b, v => v = .bool b
  | .int x, v => v = .int x
  | .range low high, v => v = .range low high
  | .symbol name, v => v = .symbol name
  | .str s, v => ∃ r, r.index < h.texts.size ∧ h.text r = s ∧ v = .str r
  | .array items, v =>
    ∃ r, r.index < h.lists.size ∧ AllHold h P items (h.list r).toList ∧ v = .array r
  | .hash entries, v =>
    ∃ r, r.index < h.tables.size ∧ (h.table r).keys.Nodup ∧
      PairsHold h P entries (h.table r).entries ∧ v = .hash r

def AllHold (h : Heap) (P : HashKey → Datum → Prop) : List Datum → List Value → Prop
  | [], vs => vs = []
  | d :: ds, vs => ∃ v rest, d.HoldsWith h P v ∧ AllHold h P ds rest ∧ vs = v :: rest

def PairsHold (h : Heap) (P : HashKey → Datum → Prop) :
    List (Datum × Datum) → List (HashKey × Entry) → Prop
  | [], es => es = []
  | (k, d) :: rest, es => ∃ filed e more, P filed k ∧ k.HoldsWith h P e.key ∧
      d.HoldsWith h P e.value ∧ PairsHold h P rest more ∧ es = (filed, e) :: more

end

/-- The value is the datum. -/
def Holds (h : Heap) (d : Datum) (v : Value) : Prop := d.HoldsWith h (fun _ _ => True) v

mutual

/-- What a hash files it under. No datum with a hash in it is a key. -/
def key : Datum → HashKey
  | .nil => .nil
  | .bool b => .bool b
  | .int x => .int x
  | .range low high => .range low high
  | .symbol name => .symbol name
  | .str s => .str s
  | .array items => .array (keys items)
  | .hash _ => .nil

def keys : List Datum → List HashKey
  | [] => []
  | d :: ds => d.key :: keys ds

end

/-- The value is the datum, and its entries are filed under the keys of the data. -/
def FiledAs (h : Heap) (d : Datum) (v : Value) : Prop :=
  d.HoldsWith h (fun filed k => filed = k.key) v

section HoldsWith

variable {h h' : Heap} {P P' : HashKey → Datum → Prop}

theorem AllHold.mono {ds : List Datum} {vs : List Value}
    (hd : ∀ d ∈ ds, ∀ v ∈ vs, d.HoldsWith h P v → d.HoldsWith h' P' v)
    (hv : AllHold h P ds vs) : AllHold h' P' ds vs := by
  induction ds generalizing vs with
  | nil => exact hv
  | cons d ds ih =>
    obtain ⟨v, rest, hv, hrest, rfl⟩ := hv
    exact ⟨v, rest, hd d List.mem_cons_self v List.mem_cons_self hv, ih (fun d' hd' v' hv' =>
      hd d' (List.mem_cons_of_mem _ hd') v' (List.mem_cons_of_mem _ hv')) hrest, rfl⟩

theorem PairsHold.mono {ds : List (Datum × Datum)} {es : List (HashKey × Entry)}
    (hd : ∀ d ∈ ds, ∀ e ∈ es, P e.1 d.1 → d.1.HoldsWith h P e.2.key →
      d.2.HoldsWith h P e.2.value →
      P' e.1 d.1 ∧ d.1.HoldsWith h' P' e.2.key ∧ d.2.HoldsWith h' P' e.2.value)
    (hes : PairsHold h P ds es) : PairsHold h' P' ds es := by
  induction ds generalizing es with
  | nil => exact hes
  | cons d ds ih =>
    obtain ⟨filed, e, more, hfiled, hkey, hvalue, hmore, rfl⟩ := hes
    obtain ⟨hfiled, hkey, hvalue⟩ :=
      hd d List.mem_cons_self _ List.mem_cons_self hfiled hkey hvalue
    exact ⟨filed, e, more, hfiled, hkey, hvalue, ih (fun d' hd' e' he' =>
      hd d' (List.mem_cons_of_mem _ hd') e' (List.mem_cons_of_mem _ he')) hmore, rfl⟩

theorem HoldsWith.grow (g : h.Grows h') (d : Datum) :
    ∀ v, d.HoldsWith h P v → d.HoldsWith h' P v := by
  induction d using Datum.induction with
  | nil | bool | int | range | symbol => exact fun v hv => hv
  | str s =>
    rintro v ⟨r, hr, htext, rfl⟩
    exact ⟨r, Nat.lt_of_lt_of_le hr g.texts.size_le, (g.text_eq hr).trans htext, rfl⟩
  | array items ih =>
    rintro v ⟨r, hr, hitems, rfl⟩
    refine ⟨r, Nat.lt_of_lt_of_le hr g.lists.size_le, ?_, rfl⟩
    rw [g.list_eq hr]
    exact hitems.mono fun d hd v _ => ih d hd v
  | hash entries ih =>
    rintro v ⟨r, hr, hnodup, hentries, rfl⟩
    refine ⟨r, Nat.lt_of_lt_of_le hr g.tables.size_le, ?_, ?_, rfl⟩
    · rw [g.table_eq hr]
      exact hnodup
    · rw [g.table_eq hr]
      exact hentries.mono fun d hd e _ hP hkey hvalue =>
        ⟨hP, (ih d hd).1 _ hkey, (ih d hd).2 _ hvalue⟩

/-! ## One datum for each value -/

theorem AllHold.unique {ds ds' : List Datum} {vs : List Value}
    (hd : ∀ d ∈ ds, ∀ d' v, d.HoldsWith h P v → d'.HoldsWith h P' v → d = d')
    (hv : AllHold h P ds vs) (hv' : AllHold h P' ds' vs) : ds = ds' := by
  induction ds generalizing ds' vs with
  | nil =>
    cases hv
    cases ds' with
    | nil => rfl
    | cons d' ds' =>
      obtain ⟨v, rest, -, -, h⟩ := hv'
      cases h
  | cons d ds ih =>
    obtain ⟨v, rest, hv, hrest, rfl⟩ := hv
    cases ds' with
    | nil => cases hv'
    | cons d' ds' =>
      obtain ⟨v', rest', hv', hrest', heq⟩ := hv'
      cases heq
      rw [hd d List.mem_cons_self d' v hv hv',
        ih (fun d hm => hd d (List.mem_cons_of_mem _ hm)) hrest hrest']

theorem PairsHold.unique {ds ds' : List (Datum × Datum)} {es : List (HashKey × Entry)}
    (hd : ∀ d ∈ ds, (∀ d' v, d.1.HoldsWith h P v → d'.HoldsWith h P' v → d.1 = d') ∧
      ∀ d' v, d.2.HoldsWith h P v → d'.HoldsWith h P' v → d.2 = d')
    (hes : PairsHold h P ds es) (hes' : PairsHold h P' ds' es) : ds = ds' := by
  induction ds generalizing ds' es with
  | nil =>
    cases hes
    cases ds' with
    | nil => rfl
    | cons d' ds' =>
      obtain ⟨filed, e, more, -, -, -, -, h⟩ := hes'
      cases h
  | cons d ds ih =>
    obtain ⟨filed, e, more, -, hkey, hvalue, hmore, rfl⟩ := hes
    cases ds' with
    | nil => cases hes'
    | cons d' ds' =>
      obtain ⟨filed', e', more', -, hkey', hvalue', hmore', heq⟩ := hes'
      cases heq
      have hfirst := hd d List.mem_cons_self
      rw [ih (fun d hm => hd d (List.mem_cons_of_mem _ hm)) hmore hmore']
      congr 1
      exact Prod.ext (hfirst.1 _ _ hkey hkey') (hfirst.2 _ _ hvalue hvalue')

theorem HoldsWith.unique (d : Datum) :
    ∀ d' v, d.HoldsWith h P v → d'.HoldsWith h P' v → d = d' := by
  induction d using Datum.induction with
  | nil | bool | int | range | symbol =>
    rintro d' v rfl hv'
    cases d' <;> simp_all [HoldsWith]
  | str s =>
    rintro d' v ⟨r, -, htext, rfl⟩ hv'
    cases d' <;> simp_all [HoldsWith]
  | array items ih =>
    rintro d' v ⟨r, -, hitems, rfl⟩ hv'
    cases d' with
    | array items' =>
      obtain ⟨r', -, hitems', heq⟩ := hv'
      cases heq
      rw [hitems.unique ih hitems']
    | _ => simp [HoldsWith] at hv'
  | hash entries ih =>
    rintro d' v ⟨r, -, -, hentries, rfl⟩ hv'
    cases d' with
    | hash entries' =>
      obtain ⟨r', -, -, hentries', heq⟩ := hv'
      cases heq
      rw [hentries.unique ih hentries']
    | _ => simp [HoldsWith] at hv'

/-! ## Keys -/

theorem AllHold.eq_keys {f : Value → Option HashKey} {ds : List Datum} {vs : List Value}
    {ks : List HashKey} (hd : ∀ d ∈ ds, ∀ v k, d.HoldsWith h P v → f v = some k → k = d.key)
    (hv : AllHold h P ds vs) (hks : vs.map f = ks.map some) : ks = keys ds := by
  induction ds generalizing vs ks with
  | nil =>
    cases hv
    rw [keys]
    exact List.map_eq_nil_iff.1 hks.symm
  | cons d ds ih =>
    obtain ⟨v, rest, hv, hrest, rfl⟩ := hv
    cases ks with
    | nil => cases hks
    | cons k ks =>
      rw [List.map_cons, List.map_cons, List.cons.injEq] at hks
      obtain ⟨hk, hks⟩ := hks
      rw [keys, hd d List.mem_cons_self v k hv hk,
        ih (fun d hm => hd d (List.mem_cons_of_mem _ hm)) hrest hks]

/-- The key inside the arrays `visiting`. None of these is met again: they hold larger data. -/
theorem HoldsWith.eq_key_of_keyWithin (d : Datum) (hfree : d.isHashFree = true) :
    ∀ (n : Nat) (visiting : List ListRef) (v : Value) (k : HashKey), d.HoldsWith h P v →
      (∀ r ∈ visiting, ∃ d' : Datum, d'.HoldsWith h P (.array r) ∧ sizeOf d < sizeOf d') →
      h.keyWithin n visiting v = some k → k = d.key := by
  induction d using Datum.induction with
  | nil | bool | int | range | symbol =>
    rintro n visiting v k rfl - hk
    cases n <;> exact (Option.some.inj hk).symm
  | str s =>
    rintro n visiting v k ⟨r, -, htext, rfl⟩ - hk
    have hkey : h.keyWithin n visiting (.str r) = some (.str s) := by
      rw [← htext]
      cases n <;> rfl
    exact Option.some.inj (hk.symm.trans hkey)
  | array items ih =>
    rintro n visiting v k ⟨r, hr, hitems, rfl⟩ hvisiting hk
    have hnew : r ∉ visiting := by
      intro hmem
      obtain ⟨d', hd', hlt⟩ := hvisiting r hmem
      have heq := HoldsWith.unique (.array items) d' (.array r) ⟨r, hr, hitems, rfl⟩ hd'
      subst heq
      exact Nat.lt_irrefl _ hlt
    rw [Heap.keyWithin_array_of_notMem hnew, Option.map_eq_some_iff] at hk
    obtain ⟨ks, hks, rfl⟩ := hk
    rw [isHashFree, allHashFree_iff] at hfree
    rw [key, hitems.eq_keys ?_ (mapM_eq_some_iff.1 hks)]
    intro d hd v k hv hk
    have hsize : sizeOf d < sizeOf (Datum.array items) := by
      have := List.sizeOf_lt_of_mem hd
      simp only [array.sizeOf_spec]
      omega
    cases n with
    | zero => cases hk
    | succ n =>
      refine ih d hd (hfree d hd) n (r :: visiting) v k hv ?_ hk
      rw [List.forall_mem_cons]
      refine ⟨⟨.array items, ⟨r, hr, hitems, rfl⟩, hsize⟩, fun r' hr' => ?_⟩
      obtain ⟨d', hd', hless⟩ := hvisiting r' hr'
      exact ⟨d', hd', Nat.lt_trans hsize hless⟩
  | hash entries ih => cases hfree

/-- A value that holds a datum without hashes is filed under the key of the datum. -/
theorem HoldsWith.key_eq {d : Datum} {v : Value} (hv : d.HoldsWith h P v)
    (hfree : d.isHashFree = true) : h.key v = d.key :=
  HoldsWith.eq_key_of_keyWithin d hfree _ [] v _ hv (by simp) (h.keyWithin_of_le (Nat.le_refl _) v)

/-! ## Filed entries -/

theorem PairsHold.map_filed {ds : List (Datum × Datum)} {es : List (HashKey × Entry)}
    (hes : PairsHold h (fun filed k => filed = k.key) ds es) :
    es.map (·.1) = ds.map (·.1.key) := by
  induction ds generalizing es with
  | nil =>
    cases hes
    rfl
  | cons d ds ih =>
    obtain ⟨filed, e, more, rfl, -, -, hmore, rfl⟩ := hes
    rw [List.map_cons, List.map_cons, ih hmore]

end HoldsWith

end Datum

/-- The value occurs in another, as an item, a key or a value of a collection, at any depth. -/
inductive Heap.Within (h : Heap) (w : Value) : Value → Prop
  | self : Within h w w
  | item {r : ListRef} {v : Value} : v ∈ (h.list r).toList → Within h w v → Within h w (.array r)
  | key {r : TableRef} {e : HashKey × Entry} :
      e ∈ (h.table r).entries → Within h w e.2.key → Within h w (.hash r)
  | value {r : TableRef} {e : HashKey × Entry} :
      e ∈ (h.table r).entries → Within h w e.2.value → Within h w (.hash r)

/-- All hashes in the value file their entries under the keys that these have now. -/
def Heap.Filed (h : Heap) (v : Value) : Prop :=
  ∀ r, h.Within (.hash r) v → ∀ e ∈ (h.table r).entries, e.1 = h.key e.2.key

namespace Datum

variable {h : Heap}

/-- What is filed under the keys of values is filed under those of the data that they hold. -/
theorem Holds.filedAs (d : Datum) (hplain : d.isPlain = true) :
    ∀ v, d.Holds h v → h.Filed v → d.FiledAs h v := by
  induction d using Datum.induction with
  | nil | bool | int | range | symbol | str => exact fun v hv _ => hv
  | array items ih =>
    rintro v ⟨r, hr, hitems, rfl⟩ hfiled
    rw [isPlain, allPlain_iff] at hplain
    exact ⟨r, hr, hitems.mono fun d hd v hv hdv =>
      ih d hd (hplain d hd) v hdv fun r' hw => hfiled r' (.item hv hw), rfl⟩
  | hash entries ih =>
    rintro v ⟨r, hr, hnodup, hentries, rfl⟩ hfiled
    rw [isPlain, allPlainPairs_iff] at hplain
    refine ⟨r, hr, hnodup, hentries.mono fun d hd e he _ hkey hvalue => ?_, rfl⟩
    obtain ⟨hplainKey, hfree, hplainValue⟩ := hplain d hd
    have hfirst := (ih d hd).1 hplainKey e.2.key hkey fun r' hw => hfiled r' (.key he hw)
    have hsecond := (ih d hd).2 hplainValue e.2.value hvalue fun r' hw => hfiled r' (.value he hw)
    exact ⟨(hfiled r .self e he).trans (hkey.key_eq hfree), hfirst, hsecond⟩

/-! ## Equality -/

theorem AllHold.length_eq {P : HashKey → Datum → Prop} {ds : List Datum} {vs : List Value}
    (hvs : AllHold h P ds vs) : vs.length = ds.length := by
  induction ds generalizing vs with
  | nil =>
    cases hvs
    rfl
  | cons d ds ih =>
    obtain ⟨v, rest, -, hrest, rfl⟩ := hvs
    rw [List.length_cons, List.length_cons, ih hrest]

theorem AllHold.exists_datum {P : HashKey → Datum → Prop} {ds : List Datum} {vs us : List Value}
    {i : Nat} {v u : Value} (hvs : AllHold h P ds vs) (hus : AllHold h P ds us)
    (hv : vs[i]? = some v) (hu : us[i]? = some u) :
    ∃ d ∈ ds, d.HoldsWith h P v ∧ d.HoldsWith h P u := by
  induction ds generalizing vs us i with
  | nil =>
    cases hvs
    cases hv
  | cons d ds ih =>
    obtain ⟨v', vs, hv', hvs, rfl⟩ := hvs
    obtain ⟨u', us, hu', hus, rfl⟩ := hus
    cases i with
    | zero =>
      cases hv
      cases hu
      exact ⟨d, List.mem_cons_self, hv', hu'⟩
    | succ i =>
      obtain ⟨d', hd', hholds⟩ := ih hvs hus hv hu
      exact ⟨d', List.mem_cons_of_mem _ hd', hholds⟩

/-- What one hash files under a key, another of the same data finds under it. -/
theorem PairsHold.find_eq {ds : List (Datum × Datum)} {es es' : List (HashKey × Entry)}
    (hes : PairsHold h (fun filed k => filed = k.key) ds es)
    (hes' : PairsHold h (fun filed k => filed = k.key) ds es') (hnodup : (es'.map (·.1)).Nodup)
    {e : HashKey × Entry} (he : e ∈ es) :
    ∃ d ∈ ds, ∃ other, d.2.FiledAs h e.2.value ∧ OrderedMap.find e.1 es' = some other ∧
      d.2.FiledAs h other.value := by
  induction ds generalizing es es' with
  | nil =>
    cases hes
    cases he
  | cons d ds ih =>
    obtain ⟨_, entry, more, rfl, -, hvalue, hmore, rfl⟩ := hes
    obtain ⟨_, entry', more', rfl, -, hvalue', hmore', rfl⟩ := hes'
    rw [List.map_cons, List.nodup_cons] at hnodup
    rcases List.mem_cons.1 he with rfl | he
    · exact ⟨d, List.mem_cons_self, entry', hvalue, by simp [OrderedMap.find], hvalue'⟩
    · obtain ⟨d', hd', other, hother, hfind, hfound⟩ := ih hmore hmore' hnodup.2 he
      refine ⟨d', List.mem_cons_of_mem _ hd', other, hother, ?_, hfound⟩
      have hmem : e.1 ∈ more'.map (·.1) := by
        rw [hmore'.map_filed, ← hmore.map_filed]
        exact List.mem_map_of_mem he
      have hne : d.1.key ≠ e.1 := fun heq => hnodup.1 (heq ▸ hmem)
      rw [OrderedMap.find, if_neg (by simpa using hne)]
      exact hfind

/-- Two values that hold the same datum, with their entries filed, are not told apart. -/
theorem FiledAs.not_told (d : Datum) :
    ∀ (steps : Nat) (v u : Value), d.FiledAs h v → d.FiledAs h u → ¬h.Told steps (v, u) := by
  induction d using Datum.induction with
  | nil | bool | int | range | symbol =>
    rintro (_ | steps) v u rfl rfl ht
    · simp [Heap.Told, Heap.Differ] at ht
    · obtain ⟨q, hc, -⟩ := ht
      cases hc
  | str s =>
    rintro (_ | steps) v u ⟨r, -, htext, rfl⟩ ⟨r', -, htext', rfl⟩ ht
    · exact ht (htext.trans htext'.symm)
    · obtain ⟨q, hc, -⟩ := ht
      cases hc
  | array items ih =>
    rintro (_ | steps) v u ⟨r, -, hitems, rfl⟩ ⟨r', -, hitems', rfl⟩ ht
    · have hsize : (h.list r).size = (h.list r').size := by
        rw [← Array.length_toList, ← Array.length_toList, hitems.length_eq, hitems'.length_eq]
      exact ht hsize
    · obtain ⟨q, hc, hq⟩ := ht
      cases hc with
      | item _ hx hy =>
        rw [← Array.getElem?_toList] at hx hy
        obtain ⟨d, hd, hholds, hholds'⟩ := hitems.exists_datum hitems' hx hy
        exact ih d hd steps _ _ hholds hholds' hq
  | hash entries ih =>
    rintro (_ | steps) v u ⟨r, -, hnodup, hentries, rfl⟩ ⟨r', -, hnodup', hentries', rfl⟩ ht
    · have hkeys : (h.table r).keys = (h.table r').keys :=
        hentries.map_filed.trans hentries'.map_filed.symm
      rcases ht with hsize | ⟨k, hk⟩
      · exact hsize (by simpa [OrderedMap.size, OrderedMap.keys] using congrArg List.length hkeys)
      · exact hk (by rw [hkeys])
    · obtain ⟨q, hc, hq⟩ := ht
      cases hc with
      | entry _ he he' =>
        obtain ⟨d, hd, other, hvalue, hfind, hother⟩ :=
          hentries.find_eq hentries' hnodup' (OrderedMap.get?_eq_some_iff.1 he)
        cases he'.symm.trans hfind
        exact (ih d hd).2 steps _ _ hvalue hother hq

theorem FiledAs.equal {d : Datum} {v u : Value} (hv : d.FiledAs h v) (hu : d.FiledAs h u) :
    h.equal v u = true :=
  Heap.equal_eq_true_iff.2 fun steps => FiledAs.not_told d steps v u hv hu

end Datum

end Spinel
