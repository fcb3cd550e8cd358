import Spinel.Evaluation
import Spinel.Proofs.Computation
import Spinel.Proofs.Datum.Holds
import Spinel.Proofs.Heap.Ancestors

/-!
# Data are shown as their texts

With the core classes as they were at the start, `inspect` shows a value that holds a datum as the
text of that datum (`Datum.inspect_eq`). The evaluator has to be usable to the depth of the datum.
-/

namespace Spinel

namespace Datum

mutual

/-- How deep it is nested. A range counts as a pair of integers. -/
def depth : Datum → Nat
  | .range _ _ => 2
  | .array items => depths items + 1
  | .hash entries => pairDepths entries + 1
  | _ => 1

def depths : List Datum → Nat
  | [] => 0
  | d :: ds => max d.depth (depths ds)

def pairDepths : List (Datum × Datum) → Nat
  | [] => 0
  | (k, d) :: rest => max (max k.depth d.depth) (pairDepths rest)

end

theorem depth_le_depths {d : Datum} {ds : List Datum} (h : d ∈ ds) : d.depth ≤ depths ds := by
  induction ds with
  | nil => cases h
  | cons e ds ih =>
    rw [depths]
    rcases List.mem_cons.1 h with rfl | h
    · exact Nat.le_max_left _ _
    · exact Nat.le_trans (ih h) (Nat.le_max_right _ _)

theorem depth_le_pairDepths {e : Datum × Datum} {es : List (Datum × Datum)} (h : e ∈ es) :
    e.1.depth ≤ pairDepths es ∧ e.2.depth ≤ pairDepths es := by
  induction es with
  | nil => cases h
  | cons e' es ih =>
    obtain ⟨k, d⟩ := e'
    rw [pairDepths]
    rcases List.mem_cons.1 h with rfl | h
    · dsimp only
      omega
    · have := ih h
      omega

end Datum

/-! ## Worlds -/

/-- Texts, arrays and hashes were added at most, and the same texts are being made. -/
structure World.Grows (w w' : World) : Prop where
  heap : w.heap.Grows w'.heap
  inspecting : w'.inspecting = w.inspecting

namespace World.Grows

variable {w w' w'' : World}

theorem refl (w : World) : w.Grows w := ⟨.refl _, rfl⟩

theorem trans (g : w.Grows w') (g' : w'.Grows w'') : w.Grows w'' :=
  ⟨g.heap.trans g'.heap, g'.inspecting.trans g.inspecting⟩

end World.Grows

theorem Run.newText_apply (s : String) (w : World) :
    Run.newText s w = .ok (.str (w.heap.newText s).1) { w with heap := (w.heap.newText s).2 } :=
  rfl

/-- A method that ends with a new text shows that text. -/
theorem inspect_of_builtin {n : Nat} {w w' : World} {v : Value} {b : Builtin} {s : String}
    (hm : w.heap.methodOf v "inspect" = some (.builtin b))
    (hrun : b.run (interpreter n) n ⟨v, [], none⟩ w = Run.newText s w') :
    ∃ w'', (interpreter (n + 1)).inspect v w = .ok s w'' ∧ w'.Grows w'' := by
  refine ⟨{ w' with heap := (w'.heap.newText s).2 }, ?_, ⟨.newText _ s, rfl⟩⟩
  have hsend : (interpreter (n + 1)).send v "inspect" [] none w = Run.newText s w' := by
    unfold Interp.send
    rw [bind_apply]
    simp only [Run.reading, hm]
    exact hrun
  have htext : (w'.heap.newText s).2.text (w'.heap.newText s).1 = s := Store.get_push_size _ _
  unfold Interp.inspect
  rw [bind_of_ok (hsend.trans (Run.newText_apply s w'))]
  simp only [Interp.textOr, Run.reading, htext]

/-- A method that makes a new text under a guard shows that text, unless it is being made. -/
theorem inspect_of_guarded {n : Nat} {w w' : World} {v : Value} {b : Builtin} {id : Identity}
    {again s : String} {x : Run String} (hm : w.heap.methodOf v "inspect" = some (.builtin b))
    (hrun : b.run (interpreter n) n ⟨v, [], none⟩ w =
      (Run.guardInspecting id again x >>= Run.newText) w)
    (hid : id ∉ w.inspecting) (hx : x { w with inspecting := id :: w.inspecting } = .ok s w')
    (hgrow : World.Grows { w with inspecting := id :: w.inspecting } w') :
    ∃ w'', (interpreter (n + 1)).inspect v w = .ok s w'' ∧ w.Grows w'' := by
  have hguard : Run.guardInspecting id again x w =
      .ok s { w' with inspecting := w.inspecting } := by
    unfold Run.guardInspecting
    rw [List.contains_eq_mem, decide_eq_false hid]
    simp only [Bool.false_eq_true, if_false, hx, hgrow.inspecting, List.tail_cons]
  obtain ⟨w'', hshow, hgrow'⟩ := inspect_of_builtin hm (hrun.trans (bind_of_ok hguard _))
  exact ⟨w'', hshow, hgrow.heap.trans hgrow'.heap, hgrow'.inspecting⟩

namespace Datum

/-- The collection that the text of something larger is being made of, if it is one. -/
def Larger (h : Heap) (d : Datum) : Identity → Prop
  | .list r => ∃ d' : Datum, d'.Holds h (.array r) ∧ sizeOf d < sizeOf d'
  | .table r => ∃ d' : Datum, d'.Holds h (.hash r) ∧ sizeOf d < sizeOf d'
  | _ => True

theorem Larger.grow {h h' : Heap} {d : Datum} {id : Identity} (hl : d.Larger h id)
    (g : h.Grows h') : d.Larger h' id := by
  cases id with
  | list r =>
    obtain ⟨d', hd', hlt⟩ := hl
    exact ⟨d', HoldsWith.grow g d' _ hd', hlt⟩
  | table r =>
    obtain ⟨d', hd', hlt⟩ := hl
    exact ⟨d', HoldsWith.grow g d' _ hd', hlt⟩
  | _ => trivial

theorem Larger.smaller {h : Heap} {d d' : Datum} {id : Identity} (hl : d.Larger h id)
    (hlt : sizeOf d' < sizeOf d) : d'.Larger h id := by
  cases id with
  | list r =>
    obtain ⟨d'', hd, h⟩ := hl
    exact ⟨d'', hd, Nat.lt_trans hlt h⟩
  | table r =>
    obtain ⟨d'', hd, h⟩ := hl
    exact ⟨d'', hd, Nat.lt_trans hlt h⟩
  | _ => trivial

/-- A datum is shown as its text by an evaluator of depth `n`. -/
def ShownAt (n : Nat) (d : Datum) : Prop :=
  ∀ (w : World) (v : Value), w.heap.classes = Core.heap.classes → d.Holds w.heap v →
    (∀ id ∈ w.inspecting, d.Larger w.heap id) →
    ∃ w', (interpreter n).inspect v w = .ok d.text w' ∧ w.Grows w'

theorem inspectAll_eq {n : Nat} {ds : List Datum} (hd : ∀ d ∈ ds, d.ShownAt n) (w : World)
    (vs : List Value) (hw : w.heap.classes = Core.heap.classes)
    (hvs : AllHold w.heap (fun _ _ => True) ds vs)
    (hlarger : ∀ d ∈ ds, ∀ id ∈ w.inspecting, d.Larger w.heap id) :
    ∃ w', (interpreter n).inspectAll vs w = .ok (ds.map text) w' ∧ w.Grows w' := by
  induction ds generalizing w vs with
  | nil =>
    cases hvs
    exact ⟨w, rfl, .refl w⟩
  | cons d ds ih =>
    obtain ⟨v, vs, hv, hvs, rfl⟩ := hvs
    obtain ⟨w₁, hrun, hgrow⟩ := hd d List.mem_cons_self w v hw hv (hlarger d List.mem_cons_self)
    have hvs : AllHold w₁.heap (fun _ _ => True) ds vs :=
      hvs.mono fun d _ v _ hv => HoldsWith.grow hgrow.heap d v hv
    have hlarger : ∀ d ∈ ds, ∀ id ∈ w₁.inspecting, d.Larger w₁.heap id := fun d hm id hid =>
      (hlarger d (List.mem_cons_of_mem _ hm) id (hgrow.inspecting ▸ hid)).grow hgrow.heap
    obtain ⟨w₂, hrest, hgrow'⟩ := ih (fun d hm => hd d (List.mem_cons_of_mem _ hm)) w₁ vs
      (hgrow.heap.classes.trans hw) hvs hlarger
    refine ⟨w₂, ?_, hgrow.trans hgrow'⟩
    rw [Interp.inspectAll, bind_of_ok hrun, bind_of_ok hrest]
    rfl

theorem pairTexts_eq {n : Nat} {ds : List (Datum × Datum)}
    (hd : ∀ d ∈ ds, d.1.ShownAt n ∧ d.2.ShownAt n) (w : World) (es : List (HashKey × Entry))
    (hw : w.heap.classes = Core.heap.classes) (hes : PairsHold w.heap (fun _ _ => True) ds es)
    (hlarger : ∀ d ∈ ds, ∀ id ∈ w.inspecting, d.1.Larger w.heap id ∧ d.2.Larger w.heap id) :
    ∃ w', Tables.pairTexts (interpreter n) (es.map fun e => (e.2.key, e.2.value)) w =
      .ok (ds.map fun d => d.1.text ++ "=>" ++ d.2.text) w' ∧ w.Grows w' := by
  induction ds generalizing w es with
  | nil =>
    cases hes
    exact ⟨w, rfl, .refl w⟩
  | cons d ds ih =>
    obtain ⟨filed, e, es, -, hkey, hvalue, hes, rfl⟩ := hes
    obtain ⟨hd₁, hd₂⟩ := hd d List.mem_cons_self
    have hl := hlarger d List.mem_cons_self
    obtain ⟨w₁, hrun₁, hgrow₁⟩ := hd₁ w e.key hw hkey fun id hid => (hl id hid).1
    obtain ⟨w₂, hrun₂, hgrow₂⟩ := hd₂ w₁ e.value (hgrow₁.heap.classes.trans hw)
      (HoldsWith.grow hgrow₁.heap _ _ hvalue)
      fun id hid => (hl id (hgrow₁.inspecting ▸ hid)).2.grow hgrow₁.heap
    have hgrow := hgrow₁.trans hgrow₂
    have hes : PairsHold w₂.heap (fun _ _ => True) ds es := hes.mono fun d _ e _ hP hkey hvalue =>
      ⟨hP, HoldsWith.grow hgrow.heap _ _ hkey, HoldsWith.grow hgrow.heap _ _ hvalue⟩
    obtain ⟨w₃, hrest, hgrow₃⟩ := ih (fun d hm => hd d (List.mem_cons_of_mem _ hm)) w₂ es
      (hgrow.heap.classes.trans hw) hes fun d hm id hid => by
        have := hlarger d (List.mem_cons_of_mem _ hm) id (hgrow.inspecting ▸ hid)
        exact ⟨this.1.grow hgrow.heap, this.2.grow hgrow.heap⟩
    refine ⟨w₃, ?_, hgrow.trans hgrow₃⟩
    rw [List.map_cons, Tables.pairTexts, bind_of_ok hrun₁, bind_of_ok hrun₂, bind_of_ok hrest]
    rfl

/-- A value that holds a datum is shown as the text of the datum. -/
theorem inspect_eq (d : Datum) : ∀ n, d.depth ≤ n → d.ShownAt n := by
  have hmethod : ∀ {w : World}, w.heap.classes = Core.heap.classes →
      ∀ (c : ClassRef) (m : Callable), Core.heap.findMethod c "inspect" = some m →
        w.heap.findMethod c "inspect" = some m :=
    fun hw c m hm => (Heap.findMethod_congr hw c _).trans hm
  induction d using Datum.induction with
  | nil =>
    rintro (_ | n) hn w v hw rfl -
    · cases hn
    exact inspect_of_builtin (hmethod hw Core.nilClass (.builtin (.nil .inspect)) rfl) rfl
  | bool b =>
    rintro (_ | n) hn w v hw rfl -
    · cases hn
    have htext : Run.readingSome (·.plainText (.bool b)) w = .ok (Datum.bool b).text w := by
      rw [Run.readingSome_apply]
      unfold Heap.plainText Heap.describe
      cases w.heap.lists.size + w.heap.tables.size <;> rfl
    have hm : w.heap.methodOf (.bool b) "inspect" = some (.builtin (.object .inspect)) := by
      cases b
      · exact hmethod hw Core.falseClass _ rfl
      · exact hmethod hw Core.trueClass _ rfl
    exact inspect_of_builtin hm (bind_of_ok htext _)
  | int x =>
    rintro (_ | n) hn w v hw rfl -
    · cases hn
    exact inspect_of_builtin (hmethod hw Core.integer (.builtin (.integer .text)) rfl) rfl
  | range low high =>
    rintro (_ | n) hn w v hw rfl -
    · cases hn
    exact inspect_of_builtin (hmethod hw Core.range (.builtin (.range .text)) rfl) rfl
  | symbol name =>
    rintro (_ | n) hn w v hw rfl -
    · cases hn
    exact inspect_of_builtin (hmethod hw Core.symbol (.builtin (.symbol .inspect)) rfl) rfl
  | str s =>
    rintro (_ | n) hn w v hw ⟨r, -, rfl, rfl⟩ -
    · cases hn
    exact inspect_of_builtin (hmethod hw Core.string (.builtin (.string .inspect)) rfl) rfl
  | array items ih =>
    rintro (_ | n) hn w v hw ⟨r, hr, hitems, rfl⟩ hlarger
    · cases hn
    rw [depth, Nat.add_le_add_iff_right] at hn
    have hself : (Datum.array items).Holds w.heap (.array r) := ⟨r, hr, hitems, rfl⟩
    have hnew : Identity.list r ∉ w.inspecting := fun hmem => by
      obtain ⟨d', hd', hlt⟩ := hlarger _ hmem
      rw [HoldsWith.unique _ _ _ hd' hself] at hlt
      exact Nat.lt_irrefl _ hlt
    have hsize : ∀ d ∈ items, sizeOf d < sizeOf (Datum.array items) := fun d hd => by
      have := List.sizeOf_lt_of_mem hd
      simp only [array.sizeOf_spec]
      omega
    obtain ⟨w₁, hall, hgrow⟩ := inspectAll_eq
      (fun d hd => ih d hd n (Nat.le_trans (depth_le_depths hd) hn))
      { w with inspecting := .list r :: w.inspecting } _ hw hitems fun d hd id hid => by
        rcases List.mem_cons.1 hid with rfl | hid
        · exact ⟨_, hself, hsize d hd⟩
        · exact (hlarger id hid).smaller (hsize d hd)
    rw [text, texts_eq_map]
    exact inspect_of_guarded (hmethod hw Core.array (.builtin (.array .inspect)) rfl) rfl hnew
      (bind_of_ok hall _) hgrow
  | hash entries ih =>
    rintro (_ | n) hn w v hw ⟨r, hr, hnodup, hentries, rfl⟩ hlarger
    · cases hn
    rw [depth, Nat.add_le_add_iff_right] at hn
    have hself : (Datum.hash entries).Holds w.heap (.hash r) := ⟨r, hr, hnodup, hentries, rfl⟩
    have hnew : Identity.table r ∉ w.inspecting := fun hmem => by
      obtain ⟨d', hd', hlt⟩ := hlarger _ hmem
      rw [HoldsWith.unique _ _ _ hd' hself] at hlt
      exact Nat.lt_irrefl _ hlt
    have hsize : ∀ e ∈ entries, sizeOf e.1 < sizeOf (Datum.hash entries) ∧
        sizeOf e.2 < sizeOf (Datum.hash entries) := fun e he => by
      have := List.sizeOf_lt_of_mem he
      obtain ⟨k, d⟩ := e
      simp only [hash.sizeOf_spec, Prod.mk.sizeOf_spec] at this ⊢
      omega
    have hdepth : ∀ e ∈ entries, e.1.depth ≤ n ∧ e.2.depth ≤ n := fun e he =>
      have := depth_le_pairDepths he
      ⟨Nat.le_trans this.1 hn, Nat.le_trans this.2 hn⟩
    obtain ⟨w₁, hall, hgrow⟩ := pairTexts_eq
      (fun e he => ⟨(ih e he).1 n (hdepth e he).1, (ih e he).2 n (hdepth e he).2⟩)
      { w with inspecting := .table r :: w.inspecting } _ hw hentries fun e he id hid => by
        rcases List.mem_cons.1 hid with rfl | hid
        · exact ⟨⟨_, hself, (hsize e he).1⟩, ⟨_, hself, (hsize e he).2⟩⟩
        · exact ⟨(hlarger id hid).smaller (hsize e he).1, (hlarger id hid).smaller (hsize e he).2⟩
    have hpairs : Tables.pairs (w.heap.table r) =
        (w.heap.table r).entries.map fun e => (e.2.key, e.2.value) := by
      simp [Tables.pairs, OrderedMap.values]
    rw [← hpairs] at hall
    rw [text, pairTexts_eq_map]
    exact inspect_of_guarded (hmethod hw Core.hash (.builtin (.hash .inspect)) rfl) rfl hnew
      (bind_of_ok hall _) hgrow

end Datum

end Spinel
