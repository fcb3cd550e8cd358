import Spinel.Evaluation
import Spinel.Proofs.Computation
import Spinel.Proofs.Datum.Holds
import Spinel.Proofs.Heap.Lookup

/-!
# Comparison by messages

The method `==` compares collections item by item, each time by sending `==` to the item, and notes
in the session which pairs are being compared. `Heap.equal` does the same inside the heap. Where no
class has a `==` of its own, both come to the same on all values, also on those that contain
themselves (`send_equals_eq_equal`).

The two do not make their checks in the same order: a message compares sizes before it looks among
the pairs under way. This makes no difference, since pairs under way have the same size
(`Heap.Paired`).
-/

namespace Spinel

/-! ## Values without a `==` of their own -/

namespace Heap

variable {h : Heap}

/-- The core classes inherit as they do at the start, and `==` is what it is at the start: the
classes that have it then have that one, and no other class and no class as a value has any. -/
structure CoreEquality (h : Heap) : Prop where
  superclass : ∀ c : ClassRef, c.index < Core.heap.classes.size →
    (h.klass c).superclass = (Core.heap.klass c).superclass
  method : ∀ c : ClassRef,
    (h.klass c).methods.get? "==" = (Core.heap.klass c).methods.get? "=="
  singleton : ∀ c s : ClassRef, (h.klass c).singleton = some s →
    (h.klass s).methods.get? "==" = none

/-- The class where the methods of an object are looked up. -/
def methodClass (h : Heap) (r : ObjectRef) : ClassRef :=
  (h.object r).singleton.getD (h.object r).klass

/-- An object with no built-in value behind it, whose class inherits from `Object` and from no class
of built-in values. -/
structure PlainObject (h : Heap) (r : ObjectRef) : Prop where
  base : (h.object r).base = none
  descends : Core.object ∈ h.ancestors (h.methodClass r)
  apart : ∀ c ∈ Core.valueClasses, c ∉ h.ancestors (h.methodClass r)

/-- All objects that occur in a value are plain. -/
def Plain (h : Heap) (v : Value) : Prop := ∀ r, h.Within (.object r) v → h.PlainObject r

/-- No built-in value stands behind a plain one. -/
theorem Plain.representation {v : Value} (hp : h.Plain v) : h.representation v = v := by
  cases v with
  | object r =>
    rw [Heap.representation, (hp r .self).base]
    rfl
  | _ => rfl

theorem Plain.item {r : ListRef} {v : Value} (hp : h.Plain (.array r))
    (hv : v ∈ (h.list r).toList) : h.Plain v :=
  fun r' hw => hp r' (.item hv hw)

theorem Plain.value {r : TableRef} {e : HashKey × Entry} (hp : h.Plain (.hash r))
    (he : e ∈ (h.table r).entries) : h.Plain e.2.value :=
  fun r' hw => hp r' (.value he hw)

theorem Filed.item {r : ListRef} {v : Value} (hf : h.Filed (.array r))
    (hv : v ∈ (h.list r).toList) : h.Filed v :=
  fun r' hw => hf r' (.item hv hw)

theorem Filed.value {r : TableRef} {e : HashKey × Entry} (hf : h.Filed (.hash r))
    (he : e ∈ (h.table r).entries) : h.Filed e.2.value :=
  fun r' hw => hf r' (.value he hw)

/-! ## Which `==` is found -/

theorem CoreEquality.ancestorsWithin (he : h.CoreEquality) (n : Nat) {c : ClassRef}
    (hc : c.index < Core.heap.classes.size) :
    h.ancestorsWithin n c = Core.heap.ancestorsWithin n c := by
  induction n generalizing c with
  | zero => rfl
  | succ n ih =>
    unfold Heap.ancestorsWithin
    rw [he.superclass c hc]
    cases hs : (Core.heap.klass c).superclass with
    | none => rfl
    | some s => exact congrArg (c :: ·) (ih (Nat.lt_trans (Core.ordered c s hs) hc))

/-- All core classes are there, since the last one has a superclass. -/
theorem CoreEquality.size_le (he : h.CoreEquality) :
    Core.heap.classes.size ≤ h.classes.size := by
  by_contra hlt
  have hsuper := he.superclass Core.falseClass (by decide)
  have hdefault : h.klass Core.falseClass = default :=
    Store.get_of_size_le (Nat.le_of_lt_succ (Nat.lt_of_not_le hlt))
  rw [hdefault] at hsuper
  cases hsuper

theorem CoreEquality.ancestors (he : h.CoreEquality) {c : ClassRef}
    (hc : c.index < Core.heap.classes.size) : h.ancestors c = Core.heap.ancestors c := by
  have hle := he.size_le
  unfold Heap.ancestors
  rw [he.ancestorsWithin _ hc]
  exact ancestorsWithin_eq Core.ordered (by omega) (by omega)

theorem CoreEquality.findMethod (he : h.CoreEquality) {c : ClassRef}
    (hc : c.index < Core.heap.classes.size) :
    h.findMethod c "==" = Core.heap.findMethod c "==" := by
  unfold Heap.findMethod
  rw [he.ancestors hc]
  exact congrArg (List.findSome? · _) (funext he.method)

/-- Of the core classes, only `Object`, `Array` and `Hash` have a `==` of their own. -/
theorem get?_equals_core (c : ClassRef) (hobject : c ≠ Core.object) (harray : c ≠ Core.array)
    (hhash : c ≠ Core.hash) : (Core.heap.klass c).methods.get? "==" = none := by
  have hall : ∀ i < Core.heap.classes.size, i = Core.object.index ∨ i = Core.array.index ∨
      i = Core.hash.index ∨ ((Core.heap.klass ⟨i⟩).methods.get? "==").isNone = true := by
    decide +kernel
  by_cases hc : c.index < Core.heap.classes.size
  · have hne : ∀ k : ClassRef, c ≠ k → c.index ≠ k.index := fun k hne heq =>
      hne (congrArg ClassRef.mk heq)
    rcases hall c.index hc with heq | heq | heq | hnone
    · exact absurd heq (hne _ hobject)
    · exact absurd heq (hne _ harray)
    · exact absurd heq (hne _ hhash)
    · exact Option.isNone_iff_eq_none.1 hnone
  · have hdefault : Core.heap.klass c = default := Store.get_of_size_le (Nat.le_of_not_lt hc)
    rw [hdefault]
    rfl

theorem CoreEquality.findMethod_of_plain (he : h.CoreEquality) {r : ObjectRef}
    (hp : h.PlainObject r) :
    h.findMethod (h.methodClass r) "==" = some (.builtin (.object .equals)) := by
  have hobject : (h.klass Core.object).methods.get? "==" = some (.builtin (.object .equals)) :=
    he.method Core.object
  have hsome : (h.findMethod (h.methodClass r) "==").isSome = true := by
    rw [Heap.findMethod, List.findSome?_isSome_iff]
    exact ⟨Core.object, hp.descends, by rw [hobject]; rfl⟩
  obtain ⟨m, hm⟩ := Option.isSome_iff_exists.1 hsome
  obtain ⟨k, hk, hget⟩ := exists_of_findMethod hm
  have hkarray : k ≠ Core.array := fun heq => hp.apart _ (by decide) (heq ▸ hk)
  have hkhash : k ≠ Core.hash := fun heq => hp.apart _ (by decide) (heq ▸ hk)
  by_cases hkobject : k = Core.object
  · rw [hkobject, hobject] at hget
    rw [hm, ← hget]
  · rw [he.method, get?_equals_core k hkobject hkarray hkhash] at hget
    cases hget

/-- Whether a value is an array or a hash. -/
def isCollection : Value → Bool
  | .array _ | .hash _ => true
  | _ => false

/-- All values but arrays and hashes have the `==` of all objects. -/
theorem CoreEquality.methodOf (he : h.CoreEquality) {v : Value} (hv : isCollection v = false)
    (hp : h.Plain v) : h.methodOf v "==" = some (.builtin (.object .equals)) := by
  cases v with
  | array r => cases hv
  | hash r => cases hv
  | object r => exact he.findMethod_of_plain (hp r .self)
  | klass c =>
    have hnone : ((h.ancestors c).findSome? fun k =>
        (h.klass k).singleton.bind fun s => (h.klass s).methods.get? "==") = none := by
      rw [List.findSome?_eq_none_iff]
      intro k _
      cases hs : (h.klass k).singleton with
      | none => rfl
      | some s => exact he.singleton k s hs
    change h.methodOfClass c "==" = _
    unfold methodOfClass
    rw [hnone]
    change h.findMethod (if (h.klass c).isModule then Core.module else Core.klass) "==" = _
    split
    · exact he.findMethod (c := Core.module) (by decide)
    · exact he.findMethod (c := Core.klass) (by decide)
  | bool b =>
    cases b with
    | true => exact he.findMethod (c := Core.trueClass) (by decide)
    | false => exact he.findMethod (c := Core.falseClass) (by decide)
  | nil => exact he.findMethod (c := Core.nilClass) (by decide)
  | int x => exact he.findMethod (c := Core.integer) (by decide)
  | float x => exact he.findMethod (c := Core.float) (by decide)
  | symbol s => exact he.findMethod (c := Core.symbol) (by decide)
  | str r => exact he.findMethod (c := Core.string) (by decide)
  | range low high => exact he.findMethod (c := Core.range) (by decide)
  | proc c => exact he.findMethod (c := Core.proc) (by decide)

/-! ## Pairs under way -/

/-- The pairs being compared are pairs of collections of one size. -/
structure Paired (h : Heap) (comparing : List (Identity × Identity)) : Prop where
  lists : ∀ a b, (Identity.list a, Identity.list b) ∈ comparing →
    (h.list a).size = (h.list b).size
  tables : ∀ a b, (Identity.table a, Identity.table b) ∈ comparing →
    (h.table a).size = (h.table b).size

theorem paired_nil (h : Heap) : h.Paired [] :=
  ⟨fun _ _ hmem => absurd hmem List.not_mem_nil, fun _ _ hmem => absurd hmem List.not_mem_nil⟩

variable {n : Nat} {comparing : List (Identity × Identity)}

theorem Paired.cons_list (hp : h.Paired comparing) {a b : ListRef}
    (hsize : (h.list a).size = (h.list b).size) : h.Paired ((.list a, .list b) :: comparing) := by
  refine ⟨fun a' b' hmem => ?_, fun a' b' hmem => ?_⟩
  · rcases List.mem_cons.1 hmem with heq | hmem
    · cases heq
      exact hsize
    · exact hp.lists a' b' hmem
  · rcases List.mem_cons.1 hmem with heq | hmem
    · cases heq
    · exact hp.tables a' b' hmem

theorem Paired.cons_table (hp : h.Paired comparing) {a b : TableRef}
    (hsize : (h.table a).size = (h.table b).size) :
    h.Paired ((.table a, .table b) :: comparing) := by
  refine ⟨fun a' b' hmem => ?_, fun a' b' hmem => ?_⟩
  · rcases List.mem_cons.1 hmem with heq | hmem
    · cases heq
    · exact hp.lists a' b' hmem
  · rcases List.mem_cons.1 hmem with heq | hmem
    · cases heq
      exact hsize
    · exact hp.tables a' b' hmem

/-- Whether a pair is under way may be asked after its sizes, if pairs under way have one size. -/
theorem checks_comm {same seen differ : Bool} {deep : Option Bool}
    (hseen : seen = true → differ = false) :
    (if same || seen then some true else if differ then some false else deep) =
      if same then some true else if differ then some false else
        if seen then some true else deep := by
  cases same <;> cases seen <;> cases differ <;> simp_all

theorem Paired.equalWithin_array (hp : h.Paired comparing) (a b : ListRef) :
    h.equalWithin n comparing (.array a) (.array b) = if a == b then some true else
      if (h.list a).size != (h.list b).size then some false else
        if comparing.contains (.list a, .list b) then some true else
          ((h.list a).toList.zip (h.list b).toList).allM
            (h.equalInside comparing (.list a, .list b) n) := by
  rw [Heap.equalWithin_array]
  apply checks_comm
  intro hc
  exact bne_eq_false_iff_eq.2 (hp.lists a b (List.contains_iff_mem.1 hc))

theorem Paired.equalWithin_hash (hp : h.Paired comparing) (a b : TableRef) :
    h.equalWithin n comparing (.hash a) (.hash b) = if a == b then some true else
      if (h.table a).size != (h.table b).size then some false else
        if comparing.contains (.table a, .table b) then some true else
          (h.table a).entries.allM fun (k, e) =>
            match (h.table b).get? k with
            | none => some false
            | some e' => h.equalInside comparing (.table a, .table b) n (e.value, e'.value) := by
  rw [Heap.equalWithin_hash]
  apply checks_comm
  intro hc
  exact bne_eq_false_iff_eq.2 (hp.tables a b (List.contains_iff_mem.1 hc))

/-- Values that are not two arrays or two hashes are compared the same within any comparison. -/
theorem equal_of_equalWithin {v w : Value} {same : Bool} (hp : pairOf (v, w) = none)
    (hsame : h.equalWithin n comparing v w = some same) : h.equal v w = same := by
  obtain ⟨b, hb, hiff⟩ := equalWithin_of_pairOf_eq_none (h := h) n comparing hp
  obtain ⟨b', hb', hiff'⟩ := equalWithin_of_pairOf_eq_none (h := h) h.pairCount [] hp
  cases hsame.symm.trans hb
  cases (equalWithin_pairCount v w).symm.trans hb'
  exact Bool.eq_iff_iff.2 (hiff'.trans hiff.symm)

end Heap

/-! ## Comparing item by item -/

section Items

variable {interp : Interp} {w : World}

theorem Interp.send_of_methodOf {v : Value} {name : String} {m : Callable} {args : List Value}
    {block : Option Callable} (hm : w.heap.methodOf v name = some m) :
    interp.send v name args block w = interp (.invoke m v args block) w := by
  unfold Interp.send
  rw [bind_apply]
  simp only [Run.reading, hm]

theorem Interp.equals_of_send {v u : Value} {b : Bool}
    (hsend : interp.send v "==" [u] none w = .ok (.bool b) w) :
    interp.equals v u w = .ok b w := by
  unfold Interp.equals
  rw [bind_of_ok hsend]
  cases b <;> rfl

/-- Items are compared in pairs up to the first that differ. -/
theorem Lists.allEqual_of_allM {ps : List (Value × Value)} {f : Value × Value → Option Bool}
    {same : Bool}
    (hf : ∀ p ∈ ps, ∀ b, f p = some b → interp.equals p.1 p.2 w = .ok b w)
    (hsame : ps.allM f = some same) : Lists.allEqual interp ps w = .ok same w := by
  induction ps with
  | nil =>
    cases hsame
    rfl
  | cons p rest ih =>
    rw [List.forall_mem_cons] at hf
    rw [List.allM_cons] at hsame
    cases hp : f p with
    | none => simp [hp] at hsame
    | some b =>
      rw [hp] at hsame
      unfold Lists.allEqual
      rw [bind_of_ok (hf.1 b hp)]
      cases b with
      | false =>
        cases hsame
        rfl
      | true => exact ih hf.2 hsame

/-- Entries are compared with those of another table up to the first that has no match. -/
theorem Tables.allEqual_of_allM {b : TableRef} {es : List (HashKey × Entry)}
    {f : Value × Value → Option Bool} {same : Bool}
    (hfiled : ∀ e ∈ es, e.1 = w.heap.key e.2.key)
    (hf : ∀ e ∈ es, ∀ other, (w.heap.table b).get? e.1 = some other →
      ∀ same, f (e.2.value, other.value) = some same →
        interp.equals e.2.value other.value w = .ok same w)
    (hsame : (es.allM fun (k, e) =>
      match (w.heap.table b).get? k with
      | none => some false
      | some other => f (e.value, other.value)) = some same) :
    Tables.allEqual interp b (es.map fun e => (e.2.key, e.2.value)) w = .ok same w := by
  induction es with
  | nil =>
    cases hsame
    rfl
  | cons e rest ih =>
    rw [List.forall_mem_cons] at hfiled hf
    rw [List.allM_cons] at hsame
    have hlook : Run.reading (fun h => Tables.lookUp h (h.table b) e.2.key) w =
        .ok (((w.heap.table b).get? e.1).map (·.value)) w := by
      rw [hfiled.1]
      rfl
    rw [List.map_cons]
    unfold Tables.allEqual
    rw [bind_of_ok hlook]
    cases hget : (w.heap.table b).get? e.1 with
    | none =>
      simp only [hget] at hsame
      cases hsame
      rfl
    | some other =>
      simp only [hget] at hsame
      dsimp only [Option.map_some]
      cases hother : f (e.2.value, other.value) with
      | none => simp [hother] at hsame
      | some b =>
        rw [hother] at hsame
        rw [bind_of_ok (hf.1 other hget b hother)]
        cases b with
        | false =>
          cases hsame
          rfl
        | true => exact ih hfiled.2 hf.2 hsame

end Items

/-! ## One message -/

section Message

variable {n m : Nat} {w : World}

/-- The session while a pair of collections is being compared. -/
def World.during (w : World) (pair : Identity × Identity) : World :=
  { w with comparing := pair :: w.comparing }

/-- A comparison of two collections, unless they are being compared already. -/
theorem Run.guardComparing_of_new {pair : Identity × Identity} {x : Run Bool} {deep : Option Bool}
    {same : Bool} (hx : pair ∉ w.comparing → ∀ b, deep = some b →
      x (w.during pair) = .ok b (w.during pair))
    (hsame : (if w.comparing.contains pair then some true else deep) = some same) :
    Run.guardComparing pair x w = .ok same w := by
  unfold World.during at hx
  unfold Run.guardComparing
  split at hsame
  · next hseen =>
    cases hsame
    rw [if_pos hseen]
  · next hnew =>
    rw [if_neg hnew, hx (fun hmem => hnew (List.contains_iff_mem.2 hmem)) same hsame]
    rfl

/-- Arrays of one size are compared by their items. -/
theorem Lists.equals_of_listRef? {interp : Interp} {a b : ListRef} {y : Value}
    {deep : Option Bool} {same : Bool} (hy : w.heap.listRef? y = some b)
    (hitems : (w.heap.list a).size = (w.heap.list b).size → ∀ same, deep = some same →
      Run.guardComparing (.list a, .list b) (Lists.allEqual interp
        ((w.heap.list a).toList.zip (w.heap.list b).toList)) w = .ok same w)
    (hsame : (if a == b then some true else
      if (w.heap.list a).size != (w.heap.list b).size then some false else deep) = some same) :
    Lists.equals interp a [y] w = .ok (.bool same) w := by
  have hother : Run.reading (·.listRef? y) w = .ok (some b) w := by rw [Run.reading, hy]
  have hours : Run.reading (·.list a) w = .ok (w.heap.list a) w := rfl
  have htheirs : Run.reading (·.list b) w = .ok (w.heap.list b) w := rfl
  unfold Lists.equals
  rw [show Run.single [y] = pure y from rfl, pure_bind, bind_of_ok hother]
  dsimp only
  split at hsame
  · next heq =>
    cases hsame
    rw [if_pos heq]
    rfl
  · next hne =>
    rw [if_neg hne, bind_of_ok hours, bind_of_ok htheirs]
    split at hsame
    · next hsize =>
      cases hsame
      rw [if_pos hsize]
      rfl
    · next hsize =>
      rw [if_neg hsize]
      rw [bne_iff_ne, not_not] at hsize
      rw [bind_of_ok (hitems hsize same hsame)]
      rfl

theorem Lists.equals_of_none {interp : Interp} {a : ListRef} {y : Value}
    (hy : w.heap.listRef? y = none) : Lists.equals interp a [y] w = .ok (.bool false) w := by
  have hother : Run.reading (·.listRef? y) w = .ok none w := by rw [Run.reading, hy]
  unfold Lists.equals
  rw [show Run.single [y] = pure y from rfl, pure_bind, bind_of_ok hother]
  rfl

/-- Hashes of one size are compared by their entries. -/
theorem Tables.equals_of_tableRef? {interp : Interp} {a b : TableRef} {y : Value}
    {deep : Option Bool} {same : Bool} (hy : w.heap.tableRef? y = some b)
    (hentries : (w.heap.table a).size = (w.heap.table b).size → ∀ same, deep = some same →
      Run.guardComparing (.table a, .table b) (Tables.allEqual interp b
        (Tables.pairs (w.heap.table a))) w = .ok same w)
    (hsame : (if a == b then some true else
      if (w.heap.table a).size != (w.heap.table b).size then some false else deep) = some same) :
    Tables.equals interp a [y] w = .ok (.bool same) w := by
  have hother : Run.reading (·.tableRef? y) w = .ok (some b) w := by rw [Run.reading, hy]
  have hours : Run.reading (·.table a) w = .ok (w.heap.table a) w := rfl
  have htheirs : Run.reading (·.table b) w = .ok (w.heap.table b) w := rfl
  unfold Tables.equals
  rw [show Run.single [y] = pure y from rfl, pure_bind, bind_of_ok hother]
  dsimp only
  split at hsame
  · next heq =>
    cases hsame
    rw [if_pos heq]
    rfl
  · next hne =>
    rw [if_neg hne, bind_of_ok hours, bind_of_ok htheirs]
    split at hsame
    · next hsize =>
      cases hsame
      rw [if_pos hsize]
      rfl
    · next hsize =>
      rw [if_neg hsize]
      rw [bne_iff_ne, not_not] at hsize
      rw [bind_of_ok (hentries hsize same hsame)]
      rfl

theorem Tables.equals_of_none {interp : Interp} {a : TableRef} {y : Value}
    (hy : w.heap.tableRef? y = none) : Tables.equals interp a [y] w = .ok (.bool false) w := by
  have hother : Run.reading (·.tableRef? y) w = .ok none w := by rw [Run.reading, hy]
  unfold Tables.equals
  rw [show Run.single [y] = pure y from rfl, pure_bind, bind_of_ok hother]
  rfl

theorem send_equals_array (he : w.heap.CoreEquality) (a : ListRef) (y : Value) :
    (interpreter (n + 1)).send (.array a) "==" [y] none w =
      Lists.equals (interpreter n) a [y] w := by
  have hm : w.heap.methodOf (.array a) "==" = some (.builtin (.array .equals)) :=
    he.findMethod (c := Core.array) (by decide)
  rw [Interp.send_of_methodOf hm]
  rfl

theorem send_equals_hash (he : w.heap.CoreEquality) (a : TableRef) (y : Value) :
    (interpreter (n + 1)).send (.hash a) "==" [y] none w =
      Tables.equals (interpreter n) a [y] w := by
  have hm : w.heap.methodOf (.hash a) "==" = some (.builtin (.hash .equals)) :=
    he.findMethod (c := Core.hash) (by decide)
  rw [Interp.send_of_methodOf hm]
  rfl

theorem send_equals_of_not_collection (he : w.heap.CoreEquality) {x : Value}
    (hx : Heap.isCollection x = false) (hp : w.heap.Plain x) (y : Value) :
    (interpreter (n + 1)).send x "==" [y] none w = .ok (.bool (w.heap.equal x y)) w := by
  rw [Interp.send_of_methodOf (he.methodOf hx hp)]
  rfl

/-- If messages compare items as the heap does, they compare arrays as the heap does. -/
theorem send_equals_arrays (he : w.heap.CoreEquality) (hpaired : w.heap.Paired w.comparing)
    {a b : ListRef} {same : Bool}
    (hitems : ∀ p ∈ (w.heap.list a).toList.zip (w.heap.list b).toList,
      (w.heap.list a).size = (w.heap.list b).size → ∀ same,
      w.heap.equalInside w.comparing (.list a, .list b) m p = some same →
      (interpreter n).send p.1 "==" [p.2] none (w.during (.list a, .list b)) =
        .ok (.bool same) (w.during (.list a, .list b)))
    (hsame : w.heap.equalWithin m w.comparing (.array a) (.array b) = some same) :
    (interpreter (n + 1)).send (.array a) "==" [.array b] none w = .ok (.bool same) w := by
  rw [hpaired.equalWithin_array] at hsame
  rw [send_equals_array he]
  refine Lists.equals_of_listRef? rfl (fun hsize same hseen => ?_) hsame
  refine Run.guardComparing_of_new (fun _ same hall => ?_) hseen
  exact Lists.allEqual_of_allM
    (fun p hp b hb => Interp.equals_of_send (hitems p hp hsize b hb)) hall

/-- If messages compare values as the heap does, they compare hashes as the heap does. -/
theorem send_equals_hashes (he : w.heap.CoreEquality) (hpaired : w.heap.Paired w.comparing)
    {a b : TableRef} {same : Bool} (hfiled : w.heap.Filed (.hash a))
    (hvalues : ∀ e ∈ (w.heap.table a).entries, ∀ other,
      (w.heap.table b).get? e.1 = some other →
      (w.heap.table a).size = (w.heap.table b).size → ∀ same,
      w.heap.equalInside w.comparing (.table a, .table b) m (e.2.value, other.value) = some same →
      (interpreter n).send e.2.value "==" [other.value] none (w.during (.table a, .table b)) =
        .ok (.bool same) (w.during (.table a, .table b)))
    (hsame : w.heap.equalWithin m w.comparing (.hash a) (.hash b) = some same) :
    (interpreter (n + 1)).send (.hash a) "==" [.hash b] none w = .ok (.bool same) w := by
  rw [hpaired.equalWithin_hash] at hsame
  rw [send_equals_hash he]
  refine Tables.equals_of_tableRef? rfl (fun hsize same hseen => ?_) hsame
  refine Run.guardComparing_of_new (fun _ same hall => ?_) hseen
  rw [Tables.pairs, OrderedMap.values, List.map_map]
  exact Tables.allEqual_of_allM (w := w.during _) (hfiled a .self) (fun e hmem other hget b hb =>
    Interp.equals_of_send (hvalues e hmem other hget hsize b hb)) hall

/-- Messages compare values that are not two arrays or two hashes as the heap does. -/
theorem send_equals_of_pairOf (he : w.heap.CoreEquality) {x y : Value}
    (hpair : Heap.pairOf (x, y) = none) (hx : w.heap.Plain x) (hy : w.heap.Plain y) :
    (interpreter (n + 1)).send x "==" [y] none w = .ok (.bool (w.heap.equal x y)) w := by
  cases x
  case array a =>
    have hnone : w.heap.listRef? y = none := by
      rw [Heap.listRef?, hy.representation]
      cases y <;> simp_all [Heap.pairOf]
    have hfalse : w.heap.equal (.array a) y = false := by
      cases y <;> simp_all [Heap.pairOf, Heap.equal, Heap.equalWithin]
    rw [send_equals_array he, Lists.equals_of_none hnone, hfalse]
  case hash a =>
    have hnone : w.heap.tableRef? y = none := by
      rw [Heap.tableRef?, hy.representation]
      cases y <;> simp_all [Heap.pairOf]
    have hfalse : w.heap.equal (.hash a) y = false := by
      cases y <;> simp_all [Heap.pairOf, Heap.equal, Heap.equalWithin]
    rw [send_equals_hash he, Tables.equals_of_none hnone, hfalse]
  all_goals exact send_equals_of_not_collection he rfl hx y

/-- Comparing by messages within a comparison under way is comparing in the heap. -/
theorem send_equals_of_equalWithin (he : w.heap.CoreEquality)
    (hpaired : w.heap.Paired w.comparing) (hmn : m < n) {x y : Value} {same : Bool}
    (hx : w.heap.Plain x) (hy : w.heap.Plain y) (hfiled : w.heap.Filed x)
    (hsame : w.heap.equalWithin m w.comparing x y = some same) :
    (interpreter n).send x "==" [y] none w = .ok (.bool same) w := by
  induction m using Nat.strongRecOn generalizing n w x y same with
  | _ m ih =>
  obtain ⟨n, rfl⟩ : ∃ k, n = k + 1 := ⟨n - 1, by omega⟩
  cases hpair : Heap.pairOf (x, y) with
  | none => rw [send_equals_of_pairOf he hpair hx hy, Heap.equal_of_equalWithin hpair hsame]
  | some pair =>
    unfold Heap.pairOf at hpair
    split at hpair <;> cases hpair
    case h_1 _ a b heq =>
      cases heq
      refine send_equals_arrays he hpaired (fun p hmem hsize same hinside => ?_) hsame
      obtain ⟨hmemx, hmemy⟩ := List.of_mem_zip hmem
      cases m with
      | zero => cases hinside
      | succ m =>
        exact ih m (Nat.lt_succ_self m) (w := w.during (.list a, .list b)) he
          (hpaired.cons_list hsize) (by omega) (hx.item hmemx) (hy.item hmemy)
          (hfiled.item hmemx) hinside
    case h_2 _ a b heq =>
      cases heq
      refine send_equals_hashes he hpaired hfiled
        (fun e hmem other hget hsize same hinside => ?_) hsame
      cases m with
      | zero => cases hinside
      | succ m =>
        exact ih m (Nat.lt_succ_self m) (w := w.during (.table a, .table b)) he
          (hpaired.cons_table hsize) (by omega) (hx.value hmem)
          (hy.value (OrderedMap.get?_eq_some_iff.1 hget)) (hfiled.value hmem) hinside

/-- Where no class has a `==` of its own and nothing is being compared, sending `==` to a value
gives the equality of the heap and changes nothing. -/
theorem send_equals_eq_equal (w : World) (he : w.heap.CoreEquality) (hidle : w.comparing = [])
    {x y : Value} (hx : w.heap.Plain x) (hy : w.heap.Plain y) (hfiled : w.heap.Filed x)
    (hn : w.heap.pairCount < n) :
    (interpreter n).send x "==" [y] none w = .ok (.bool (w.heap.equal x y)) w := by
  have hpaired : w.heap.Paired w.comparing := hidle ▸ Heap.paired_nil w.heap
  refine send_equals_of_equalWithin he hpaired hn hx hy hfiled ?_
  rw [hidle]
  exact Heap.equalWithin_pairCount x y

end Message

/-! ## Collections that contain themselves -/

/-- Two arrays and two hashes that hold themselves and each other in the same way. -/
def Heap.knotted : Heap :=
  { Core.heap with
    lists := ⟨#[#[.array ⟨0⟩, .hash ⟨0⟩, .object Core.main],
      #[.array ⟨1⟩, .hash ⟨1⟩, .object Core.main]]⟩
    tables := ⟨#[.ofList [(.symbol "k", ⟨.symbol "k", .array ⟨0⟩⟩)],
      .ofList [(.symbol "k", ⟨.symbol "k", .array ⟨1⟩⟩)]]⟩ }

theorem Heap.coreEquality_knotted : Heap.knotted.CoreEquality where
  superclass _ _ := rfl
  method _ := rfl
  singleton c s hs := by
    have hnone : ∀ i < Core.heap.classes.size, (Core.heap.klass ⟨i⟩).singleton = none := by
      decide +kernel
    by_cases hc : c.index < Core.heap.classes.size
    · cases (hnone c.index hc).symm.trans hs
    · have hdefault : Heap.knotted.klass c = default :=
        Store.get_of_size_le (Nat.le_of_not_lt hc)
      rw [hdefault] at hs
      cases hs

theorem Heap.plain_knotted (v : Value) : Heap.knotted.Plain v := by
  rintro ⟨i⟩ _
  have hobject : (Heap.knotted.object ⟨i⟩).base = none ∧
      Heap.knotted.methodClass ⟨i⟩ = Core.object := by
    cases i <;> exact ⟨rfl, rfl⟩
  exact ⟨hobject.1, by rw [hobject.2]; decide, by rw [hobject.2]; decide⟩

theorem Heap.filed_knotted (v : Value) : Heap.knotted.Filed v := by
  rintro ⟨i⟩ _ e he
  match i with
  | 0 | 1 =>
    rw [List.mem_singleton.1 he]
    rfl
  | i + 2 => cases he

/-- Two arrays that contain themselves in the same way are equal. -/
theorem send_equals_knotted :
    (interpreter 9).send (.array ⟨0⟩) "==" [.array ⟨1⟩] none { heap := Heap.knotted } =
      .ok (.bool true) { heap := Heap.knotted } := by
  have hequal : Heap.knotted.equal (.array ⟨0⟩) (.array ⟨1⟩) = true := by decide +kernel
  rw [send_equals_eq_equal { heap := Heap.knotted } Heap.coreEquality_knotted rfl
    (Heap.plain_knotted _) (Heap.plain_knotted _) (Heap.filed_knotted _) (by decide), hequal]

end Spinel
