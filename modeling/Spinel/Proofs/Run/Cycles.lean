import Spinel.Proofs.Datum.Inspect
import Spinel.Proofs.Run.Messages
import Spinel.Proofs.Run.Receivers

/-!
# Showing, comparing and hashing values that contain themselves

The methods that show values note which collections and objects they are inside of, those that
compare values the pairs of collections, and hash keys the arrays. What is noted is not entered a
second time, and a heap has only so many cells, so each of them ends, however the values of the heap
contain one another. Each nested call enters one more cell of those that are left (`remaining`),
and a depth beyond their number is enough.
-/

namespace Spinel

/-! ## Cells that are left -/

namespace Heap

variable {h : Heap}

/-- The arrays, hashes and objects of a heap. -/
def cells (h : Heap) : List Identity :=
  (List.range h.lists.size).map (.list ⟨·⟩) ++ (List.range h.tables.size).map (.table ⟨·⟩) ++
    (List.range h.objects.size).map (.object ⟨·⟩)

theorem length_cells (h : Heap) :
    h.cells.length = h.lists.size + h.tables.size + h.objects.size := by
  simp [cells, Nat.add_assoc]

theorem list_mem_cells {r : ListRef} {v : Value} (hv : v ∈ (h.list r).toList) :
    Identity.list r ∈ h.cells := by
  refine List.mem_append_left _ (List.mem_append_left _ (List.mem_map.2 ⟨r.index, ?_, rfl⟩))
  exact List.mem_range.2 (index_lt_of_mem_list hv)

theorem table_mem_cells {r : TableRef} {e : HashKey × Entry} (he : e ∈ (h.table r).entries) :
    Identity.table r ∈ h.cells := by
  refine List.mem_append_left _ (List.mem_append_right _ (List.mem_map.2 ⟨r.index, ?_, rfl⟩))
  exact List.mem_range.2 (index_lt_of_mem_table he)

theorem object_mem_cells {r : ObjectRef} {e : String × Value}
    (he : e ∈ (h.object r).slots.entries) : Identity.object r ∈ h.cells := by
  have hlt : r.index < h.objects.size := by
    by_contra hge
    rw [object, Store.get_of_size_le (Nat.le_of_not_lt hge)] at he
    cases he
  exact List.mem_append_right _ (List.mem_map.2 ⟨r.index, List.mem_range.2 hlt, rfl⟩)

/-- There is a plain text of whatever is no array or hash. -/
theorem exists_plainText {v : Value} (hv : isCollection v = false) :
    ∃ s, h.plainText v = some s := by
  have hdescribe : ∀ n, ∀ u, isCollection u = false → ∃ s, h.describeWithin n u = some s := by
    intro n u hu
    cases u with
    | array r => cases hu
    | hash r => cases hu
    | _ => cases n <;> exact ⟨_, rfl⟩
  cases v with
  | object r => exact ⟨_, rfl⟩
  | klass c => exact ⟨_, rfl⟩
  | proc c => exact ⟨_, rfl⟩
  | _ => exact hdescribe _ _ hv

theorem isCollection_of_textRef? {v : Value} {r : TextRef} (hr : h.textRef? v = some r) :
    isCollection v = false := by
  cases v with
  | array r => cases hr
  | hash r => cases hr
  | _ => rfl

theorem methodOf_congr {h' : Heap} (hc : h.classes = h'.classes) (ho : h.objects = h'.objects)
    (v : Value) (name : String) : h.methodOf v name = h'.methodOf v name := by
  cases v with
  | object r =>
    have hobject : h.object r = h'.object r := by rw [object, object, ho]
    change h.findMethod ((h.object r).singleton.getD (h.object r).klass) name = _
    rw [hobject]
    exact findMethod_congr hc _ _
  | klass c =>
    change h.methodOfClass c name = h'.methodOfClass c name
    have hanc : h.ancestors c = h'.ancestors c := by
      unfold ancestors
      rw [ancestorsWithin_congr hc, hc]
    have hclass : h.classOf (.klass c) = h'.classOf (.klass c) := by
      change (if (h.klass c).isModule then Core.module else Core.klass) = _
      rw [klass_congr hc]
      rfl
    unfold methodOfClass
    simp only [hanc, klass_congr hc, hclass, findMethod_congr hc]
  | bool b => cases b <;> exact findMethod_congr hc _ _
  | _ => exact findMethod_congr hc _ _

end Heap

/-! ## Computations that end -/

namespace World

/-- The session with more texts on its heap. -/
def adding (w : World) (texts : Array String) : World :=
  { w with heap := { w.heap with texts := ⟨w.heap.texts.cells ++ texts⟩ } }

/-- The session while the text of a cell is being made. -/
def showing (w : World) (id : Identity) : World :=
  { w with inspecting := id :: w.inspecting }

/-- How many cells there are whose text is not being made. -/
def unshown (w : World) : Nat := remaining w.heap.cells w.inspecting

theorem adding_empty (w : World) : w.adding #[] = w := by
  unfold adding
  rw [Array.append_empty]

theorem unshown_showing_lt {w : World} {id : Identity} (hid : id ∈ w.heap.cells)
    (hnew : id ∉ w.inspecting) : (w.showing id).unshown < w.unshown :=
  remaining_cons_lt hid hnew

end World

namespace Run

variable {α β : Type} {w : World} {x : Run α} {P : α → Prop} {Q : β → Prop}

/-- From a session, whatever texts were added to it, the computation gives a result of which `P`
holds, and it adds texts at most. -/
def Gives (w : World) (P : α → Prop) (x : Run α) : Prop :=
  ∀ texts, ∃ a texts', x (w.adding texts) = .ok a (w.adding texts') ∧ P a

/-- A result is given, whatever it is. -/
abbrev Completes (w : World) (x : Run α) : Prop := Gives w (fun _ => True) x

theorem Gives.exists_ok (hx : Gives w P x) : ∃ a texts, x w = .ok a (w.adding texts) := by
  obtain ⟨a, texts, hok, -⟩ := hx #[]
  rw [w.adding_empty] at hok
  exact ⟨a, texts, hok⟩

theorem Gives.mono {P' : α → Prop} (hx : Gives w P x) (hP : ∀ a, P a → P' a) : Gives w P' x := by
  intro texts
  obtain ⟨a, texts', hok, ha⟩ := hx texts
  exact ⟨a, texts', hok, hP a ha⟩

theorem gives_pure {a : α} (ha : P a) : Gives w P (pure a) := fun texts => ⟨a, texts, rfl, ha⟩

theorem completes_pure (a : α) : Completes w (pure a) := gives_pure trivial

theorem Gives.bind {f : α → Run β} (hx : Gives w P x) (hf : ∀ a, P a → Gives w Q (f a)) :
    Gives w Q (x >>= f) := by
  intro texts
  obtain ⟨a, texts', hok, ha⟩ := hx texts
  obtain ⟨b, texts'', hok', hb⟩ := hf a ha texts'
  exact ⟨b, texts'', (bind_of_ok hok f).trans hok', hb⟩

theorem Completes.bind {f : α → Run β} (hx : Completes w x) (hf : ∀ a, Gives w Q (f a)) :
    Gives w Q (x >>= f) :=
  Gives.bind hx fun a _ => hf a

theorem completes_reading (f : Heap → α) : Completes w (reading f) :=
  fun texts => ⟨_, texts, rfl, trivial⟩

theorem completes_readingSome {g : Heap → Option α}
    (hg : ∀ texts, ∃ a, g (w.adding texts).heap = some a) : Completes w (readingSome g) := by
  intro texts
  obtain ⟨a, ha⟩ := hg texts
  refine ⟨a, texts, ?_, trivial⟩
  rw [readingSome_apply, ha]

/-- What is read off the heap is known, if it does not depend on texts. -/
theorem gives_reading_bind {g : Heap → α} {f : α → Run β} {a : α}
    (hg : ∀ texts, g (w.adding texts).heap = a) (hf : Gives w Q (f a)) :
    Gives w Q (reading g >>= f) := by
  intro texts
  have hread : reading g (w.adding texts) = .ok a (w.adding texts) := by rw [reading, hg]
  rw [bind_of_ok hread]
  exact hf texts

theorem gives_newText (s : String) : Gives w (fun v => ∃ r, v = .str r) (newText s) := by
  intro texts
  refine ⟨.str ⟨(w.adding texts).heap.texts.size⟩, texts.push s, ?_, _, rfl⟩
  unfold World.adding
  rw [Array.append_push]
  rfl

theorem completes_needs {wanted : Shape} {f : Heap → Value → Option α} {v : Value}
    (hf : ∀ texts, ∃ a, f (w.adding texts).heap v = some a) : Completes w (needs wanted f v) := by
  intro texts
  obtain ⟨a, ha⟩ := hf texts
  exact ⟨a, texts, needs_of_some ha, trivial⟩

/-- The text of a cell is made, unless it is being made already. -/
theorem completes_guardInspecting {id : Identity} {again : α}
    (hx : id ∉ w.inspecting → Completes (w.showing id) x) :
    Completes w (guardInspecting id again x) := by
  intro texts
  have hinspecting : (w.adding texts).inspecting = w.inspecting := rfl
  unfold guardInspecting
  rw [hinspecting]
  split
  case isTrue => exact ⟨again, texts, rfl, trivial⟩
  case isFalse hnot =>
    have hnew : id ∉ w.inspecting := fun hmem => hnot (List.contains_iff_mem.2 hmem)
    obtain ⟨a, texts', hok, -⟩ := hx hnew texts
    have hinside : x { w.adding texts with inspecting := id :: w.inspecting } =
        .ok a ((w.showing id).adding texts') := hok
    refine ⟨a, texts', ?_, trivial⟩
    rw [hinside]
    rfl

end Run

open Run

namespace Interp

variable {interp : Interp} {w : World} {v : Value} {name : String}

theorem gives_send {m : Callable} {args : List Value} {block : Option Callable} {P : Value → Prop}
    (hm : w.heap.methodOf v name = some m) (hrun : Gives w P (interp (.invoke m v args block))) :
    Gives w P (interp.send v name args block) := by
  have hfound : ∀ texts, (w.adding texts).heap.methodOf v name = some m := by
    intro texts
    have hclasses : (w.adding texts).heap.classes = w.heap.classes := rfl
    rw [← hm]
    exact Heap.methodOf_congr hclasses rfl v name
  exact gives_reading_bind hfound hrun

/-- A method answers with a text, or there is a plain text of its receiver. -/
def Legible (v answer : Value) : Prop := (∃ r, answer = .str r) ∨ Heap.isCollection v = false

theorem completes_textOr {answer : Value} (hanswer : Legible v answer) :
    Completes w (textOr v answer) := by
  unfold textOr
  split
  case h_1 => exact completes_reading _
  case h_2 hno =>
    rcases hanswer with ⟨r, rfl⟩ | hplain
    · exact absurd rfl (hno r)
    · exact completes_readingSome fun _ => Heap.exists_plainText hplain

theorem completes_inspect (hv : Gives w (Legible v) (interp.send v "inspect" [] none)) :
    Completes w (interp.inspect v) :=
  hv.bind fun _ => completes_textOr

theorem completes_text (hv : Gives w (Legible v) (interp.send v "to_s" [] none)) :
    Completes w (interp.text v) := by
  unfold Interp.text
  split
  · exact completes_reading _
  · exact hv.bind fun _ => completes_textOr

theorem completes_inspectAll {vs : List Value} (hvs : ∀ v ∈ vs, Completes w (interp.inspect v)) :
    Completes w (interp.inspectAll vs) := by
  induction vs with
  | nil => exact completes_pure []
  | cons v rest ih =>
    rw [List.forall_mem_cons] at hvs
    exact hvs.1.bind fun _ => (ih hvs.2).bind fun _ => completes_pure _

theorem completes_pairTexts {pairs : List (Value × Value)}
    (hpairs : ∀ p ∈ pairs, Completes w (interp.inspect p.1) ∧ Completes w (interp.inspect p.2)) :
    Completes w (Tables.pairTexts interp pairs) := by
  induction pairs with
  | nil => exact completes_pure []
  | cons p rest ih =>
    rw [List.forall_mem_cons] at hpairs
    obtain ⟨⟨hkey, hvalue⟩, hrest⟩ := hpairs
    exact hkey.bind fun _ => hvalue.bind fun _ => (ih hrest).bind fun _ => completes_pure _

theorem completes_variableTexts {slots : List (String × Value)}
    (hslots : ∀ s ∈ slots, Completes w (interp.inspect s.2)) :
    Completes w (Universal.variableTexts interp slots) := by
  induction slots with
  | nil => exact completes_pure []
  | cons s rest ih =>
    rw [List.forall_mem_cons] at hslots
    exact hslots.1.bind fun _ => (ih hslots.2).bind fun _ => completes_pure _

end Interp

/-! ## Texts -/

section Texts

variable {interp : Interp} {w : World} {v : Value}

/-- The evaluator makes the texts of values while the text of a cell is being made. -/
def World.Enters (w : World) (interp : Interp) : Prop :=
  ∀ id ∈ w.heap.cells, id ∉ w.inspecting → ∀ v, Completes (w.showing id) (interp.inspect v)

theorem Universal.gives_text (hv : Heap.isCollection v = false) :
    Gives w (fun s => ∃ r, s = .str r) (Universal.text v) := by
  have hplain : Completes w (readingSome (·.plainText v)) :=
    completes_readingSome fun _ => Heap.exists_plainText hv
  unfold Universal.text
  split
  · split
    · exact gives_newText _
    · exact hplain.bind gives_newText
  · exact hplain.bind gives_newText

theorem Universal.gives_inspect (henters : w.Enters interp) (hv : Heap.isCollection v = false) :
    Gives w (fun s => ∃ r, s = .str r) (Universal.inspect interp v) := by
  unfold Universal.inspect
  split
  case h_1 r =>
    apply gives_reading_bind (a := (w.heap.object r).slots) fun _ => rfl
    split
    · exact Universal.gives_text hv
    · refine (completes_reading _).bind fun name => ?_
      refine Completes.bind (completes_guardInspecting fun hnew => ?_) gives_newText
      refine Completes.bind (Interp.completes_variableTexts fun s hs => ?_) fun _ =>
        completes_pure _
      exact henters _ (Heap.object_mem_cells hs) hnew s.2
  case h_2 => exact Universal.gives_text hv

theorem Lists.gives_inspect (henters : w.Enters interp) (r : ListRef) :
    Gives w (fun s => ∃ r, s = .str r) (Lists.inspect interp r) := by
  apply gives_reading_bind (a := w.heap.list r) fun _ => rfl
  refine Completes.bind (completes_guardInspecting fun hnew => ?_) gives_newText
  refine Completes.bind (Interp.completes_inspectAll fun v hv => ?_) fun _ => completes_pure _
  exact henters _ (Heap.list_mem_cells hv) hnew v

theorem Tables.gives_inspect (henters : w.Enters interp) (r : TableRef) :
    Gives w (fun s => ∃ r, s = .str r) (Tables.inspect interp r) := by
  apply gives_reading_bind (a := Tables.pairs (w.heap.table r)) fun _ => rfl
  refine Completes.bind (completes_guardInspecting fun hnew => ?_) gives_newText
  refine Completes.bind (Interp.completes_pairTexts fun p hp => ?_) fun _ => completes_pure _
  rw [Tables.pairs, OrderedMap.values, List.map_map] at hp
  obtain ⟨e, he, -⟩ := List.mem_map.1 hp
  have henter := henters _ (Heap.table_mem_cells he) hnew
  exact ⟨henter p.1, henter p.2⟩

/-- A method that makes the text of its receiver ends if it does so inside of each cell. -/
theorem gives_textMethod (henters : w.Enters interp) (n : Nat) {b : Builtin}
    (hb : b ∈ Core.textMethods) (hv : w.heap.Receives v b.owner)
    (hplain : b.owner = Core.object → Heap.isCollection v = false) :
    Gives w (Interp.Legible v) (b.run interp n ⟨v, [], none⟩) := by
  have htext : ∀ {x : Run Value}, Gives w (fun s => ∃ r, s = .str r) x →
      Gives w (Interp.Legible v) x := fun hx => hx.mono fun _ => .inl
  have hnew : ∀ s, Gives w (Interp.Legible v) (newText s) := fun s => htext (gives_newText s)
  simp only [Core.textMethods, List.mem_cons, List.not_mem_nil, or_false] at hb
  rcases hb with rfl | rfl | rfl | rfl | rfl | rfl | rfl | rfl | rfl | rfl | rfl | rfl | rfl | rfl
  · exact htext (Universal.gives_text (hplain rfl))
  · exact htext (Universal.gives_inspect henters (hplain rfl))
  · exact hnew ""
  · exact hnew "nil"
  · cases hv.hasShape (by decide) with
    | module c =>
      refine Completes.bind (completes_pure c) fun _ => ?_
      exact (completes_reading _).bind hnew
  · cases hv.hasShape (by decide)
    exact hnew _
  · cases hv.hasShape (by decide)
    exact hnew _
  · obtain ⟨r, hr⟩ := hv.exists_textRef?
    exact gives_pure (.inr (Heap.isCollection_of_textRef? hr))
  · obtain ⟨r, hr⟩ := hv.exists_textRef?
    refine (completes_needs fun texts => ?_).bind fun s => hnew _
    exact ⟨_, congrArg (Option.map (w.adding texts).heap.text) hr⟩
  · cases hv.hasShape (by decide)
    exact hnew _
  · cases hv.hasShape (by decide)
    exact hnew _
  · exact (completes_needs fun _ => hv.exists_range?).bind fun _ => hnew _
  · refine (completes_needs fun _ => hv.exists_listRef?).bind fun r => ?_
    exact htext (Lists.gives_inspect henters r)
  · refine (completes_needs fun _ => hv.exists_tableRef?).bind fun r => ?_
    exact htext (Tables.gives_inspect henters r)

/-- Making the text of a value ends at a depth beyond the cells that are left. -/
theorem gives_send_text {n : Nat} {name : String} (hd : w.heap.CoreDisplay)
    (hn : w.unshown < n) (hname : name ∈ ["inspect", "to_s"]) (v : Value) :
    Gives w (Interp.Legible v) ((interpreter n).send v name [] none) := by
  induction n generalizing w name v with
  | zero => exact absurd hn (Nat.not_lt_zero _)
  | succ n ih =>
    obtain ⟨b, hb, hm, hv⟩ := hd.exists_textMethod hname v
    -- inside of a cell there is one less that is left
    have henters : w.Enters (interpreter n) := by
      intro id hid hnew u
      have hlt := World.unshown_showing_lt hid hnew
      apply Interp.completes_inspect
      exact ih (w := w.showing id) hd (by omega) (by decide) u
    apply Interp.gives_send hm
    exact gives_textMethod henters n hb hv (hd.isCollection_of_textMethod hname hm)

/-! ## Lines and joined texts -/

theorem Interp.completes_all {f : Value → Run (List String)} {vs : List Value}
    (hvs : ∀ v ∈ vs, Completes w (f v)) : Completes w (Interp.lines.all f vs) := by
  induction vs with
  | nil => exact completes_pure []
  | cons v rest ih =>
    rw [List.forall_mem_cons] at hvs
    exact hvs.1.bind fun _ => (ih hvs.2).bind fun _ => completes_pure _

theorem completes_lines {m n : Nat} (hd : w.heap.CoreDisplay) (hm : w.unshown < m)
    (hn : w.unshown < n) (v : Value) : Completes w ((interpreter m).lines n v) := by
  induction n generalizing w v with
  | zero => exact absurd hn (Nat.not_lt_zero _)
  | succ n ih =>
    unfold Interp.lines
    split
    case h_1 => exact completes_pure _
    case h_2 r =>
      apply gives_reading_bind (a := w.heap.list r) fun _ => rfl
      apply completes_guardInspecting
      intro hnew
      apply Interp.completes_all
      intro u hu
      have hlt := World.unshown_showing_lt (Heap.list_mem_cells hu) hnew
      exact ih (w := w.showing (.list r)) hd (by omega) (by omega) u
    case h_3 =>
      have htext := Interp.completes_text (gives_send_text hd hm (by decide) v)
      exact htext.bind fun _ => completes_pure _

theorem completes_argumentLines {n : Nat} (hd : w.heap.CoreDisplay) (hn : w.unshown < n)
    (v : Value) : Completes w (Kernel.argumentLines (interpreter n) n v) := by
  have hlines := completes_lines hd hn hn
  unfold Kernel.argumentLines
  split
  · refine (completes_reading _).bind fun items => ?_
    split
    · exact completes_pure _
    · exact hlines _
  · exact hlines _

theorem Run.write_of_takesAll (hwrite : w.host.write.TakesAll) (text : String) :
    write text w = .ok () { w with given := text :: w.given, output := w.output ++ text } := by
  rw [write, hwrite]

/-- `puts` ends where no output is refused, and it changes the output alone. -/
theorem exists_send_puts {n : Nat} (hd : w.heap.CoreDisplay) (hwrite : w.host.write.TakesAll)
    (hn : w.unshown + 1 < n) (self : Value) (args : List Value) : ∃ text texts,
      (interpreter n).send self "puts" args none w =
        .ok .nil { w.adding texts with given := text :: w.given, output := w.output ++ text } := by
  obtain ⟨n, rfl⟩ : ∃ k, n = k + 1 := ⟨n - 1, by omega⟩
  have honly : ∀ i < Core.heap.classes.size, i ≠ Core.object.index →
      Core.builtin? ⟨i⟩ "puts" = none := by decide +kernel
  obtain ⟨hm, -⟩ := hd.methodOf_of_only (b := .kernel .puts) (by decide) rfl honly
    (hd.object_mem_ancestors self)
  have hlines : Completes w (Interp.lines.all (Kernel.argumentLines (interpreter n) n) args) :=
    Interp.completes_all fun v _ => completes_argumentLines hd (by omega) v
  obtain ⟨lines, texts, hok⟩ := hlines.exists_ok
  rw [Interp.send_of_methodOf hm]
  change ∃ text texts, Kernel.puts (interpreter n) n args w = _
  unfold Kernel.puts
  rw [bind_of_ok hok, bind_of_ok (@write_of_takesAll (w.adding texts) hwrite _)]
  exact ⟨_, texts, rfl⟩

theorem Lists.completes_texts {nested : ListRef → Run String} {vs : List Value}
    (hnested : ∀ r, .array r ∈ vs → Completes w (nested r))
    (hvs : ∀ v ∈ vs, Completes w (interp.text v)) :
    Completes w (Lists.joined.texts interp nested vs) := by
  induction vs with
  | nil => exact completes_pure []
  | cons v rest ih =>
    rw [List.forall_mem_cons] at hvs
    have hrest := ih (fun r hr => hnested r (List.mem_cons_of_mem _ hr)) hvs.2
    unfold Lists.joined.texts
    split
    · exact (hnested _ List.mem_cons_self).bind fun _ => hrest.bind fun _ => completes_pure _
    · exact (completes_pure "").bind fun _ => hrest.bind fun _ => completes_pure _
    · exact hvs.1.bind fun _ => hrest.bind fun _ => completes_pure _

theorem completes_joined {m n : Nat} (hd : w.heap.CoreDisplay) (hm : w.unshown < m)
    (hn : w.unshown < n) (sep : String) (r : ListRef) :
    Completes w (Lists.joined (interpreter m) sep n r) := by
  induction n generalizing w r with
  | zero => exact absurd hn (Nat.not_lt_zero _)
  | succ n ih =>
    apply gives_reading_bind (a := w.heap.list r) fun _ => rfl
    apply completes_guardInspecting
    intro hnew
    -- an array with items is a cell of the heap
    have hinside : ∀ u ∈ (w.heap.list r).toList, (w.showing (.list r)).unshown < w.unshown :=
      fun u hu => World.unshown_showing_lt (Heap.list_mem_cells hu) hnew
    refine Completes.bind (Lists.completes_texts (fun inner hin => ?_) fun u hu => ?_)
      fun _ => completes_pure _
    · have hlt := hinside _ hin
      exact ih (w := w.showing (.list r)) hd (by omega) (by omega) inner
    · have hlt := hinside u hu
      apply Interp.completes_text
      exact gives_send_text (w := w.showing (.list r)) hd (by omega) (by decide) u

/-- What `join` may be given: nothing or a separator. -/
inductive Heap.Separates (h : Heap) : List Value → Prop
  | nothing : Separates h []
  | text (sep : Value) (r : TextRef) (hsep : h.textRef? sep = some r) : Separates h [sep]

theorem gives_send_join {n : Nat} (hd : w.heap.CoreDisplay) (hn : w.unshown + 1 < n)
    (harray : Core.array ∈ w.heap.ancestors (w.heap.answerClass v)) {args : List Value}
    (hargs : w.heap.Separates args) :
    Gives w (fun s => ∃ r, s = .str r) ((interpreter n).send v "join" args none) := by
  obtain ⟨n, rfl⟩ : ∃ k, n = k + 1 := ⟨n - 1, by omega⟩
  have honly : ∀ i < Core.heap.classes.size, i ≠ Core.array.index →
      Core.builtin? ⟨i⟩ "join" = none := by decide +kernel
  obtain ⟨hm, hv⟩ := hd.methodOf_of_only (b := .array .join) (by decide) rfl honly harray
  have hjoined := completes_joined (n := n) hd (by omega : w.unshown < n) (by omega)
  apply Interp.gives_send hm
  refine (completes_needs fun _ => hv.exists_listRef?).bind fun r => ?_
  cases hargs with
  | nothing => exact (hjoined "" r).bind gives_newText
  | text sep t ht =>
    have hsep : Completes w (needText sep) :=
      completes_needs fun texts => ⟨_, congrArg (Option.map (w.adding texts).heap.text) ht⟩
    exact hsep.bind fun s => (hjoined s r).bind gives_newText

end Texts

/-! ## Comparisons -/

section Comparisons

variable {interp : Interp} {w : World}

/-- How many pairs of collections there are that are not being compared. -/
def World.uncompared (w : World) : Nat := remaining w.heap.collectionPairs w.comparing

/-- A question is answered, and nothing changes. -/
def Run.Decides (w : World) (x : Run Bool) : Prop := ∃ b, x w = .ok b w

theorem Run.decides_guardComparing {pair : Identity × Identity} {x : Run Bool}
    (hx : pair ∉ w.comparing → Decides (w.during pair) x) :
    Decides w (guardComparing pair x) := by
  by_cases hnew : pair ∈ w.comparing
  · have hseen : (if w.comparing.contains pair then some true else none) = some true :=
      if_pos (List.contains_iff_mem.2 hnew)
    exact ⟨true, guardComparing_of_new (fun hnot => absurd hnew hnot) hseen⟩
  · obtain ⟨b, hb⟩ := hx hnew
    have hunseen : (if w.comparing.contains pair then some true else some b) = some b :=
      if_neg fun hin => hnew (List.contains_iff_mem.1 hin)
    exact ⟨b, guardComparing_of_new (fun _ _ heq => Option.some.inj heq ▸ hb) hunseen⟩

/-- Two collections are compared by what is in them at most. -/
theorem exists_answer (alike apart same : Bool) :
    ∃ answer, (if alike then some true else if apart then some false else some same) =
      some answer := by
  cases alike <;> cases apart <;> exact ⟨_, rfl⟩

theorem Lists.decides_allEqual {ps : List (Value × Value)}
    (hps : ∀ p ∈ ps, Decides w (interp.equals p.1 p.2)) :
    Decides w (Lists.allEqual interp ps) := by
  induction ps with
  | nil => exact ⟨true, rfl⟩
  | cons p rest ih =>
    rw [List.forall_mem_cons] at hps
    obtain ⟨b, hb⟩ := hps.1
    unfold Decides Lists.allEqual
    rw [bind_of_ok hb]
    cases b with
    | false => exact ⟨false, rfl⟩
    | true => exact ih hps.2

theorem Tables.decides_allEqual {other : TableRef} {ps : List (Value × Value)}
    (hps : ∀ p ∈ ps, ∀ u, Decides w (interp.equals p.2 u)) :
    Decides w (Tables.allEqual interp other ps) := by
  induction ps with
  | nil => exact ⟨true, rfl⟩
  | cons p rest ih =>
    rw [List.forall_mem_cons] at hps
    have hread : reading (fun h => Tables.lookUp h (h.table other) p.1) w =
        .ok (Tables.lookUp w.heap (w.heap.table other) p.1) w := rfl
    unfold Decides Tables.allEqual
    rw [bind_of_ok hread]
    cases Tables.lookUp w.heap (w.heap.table other) p.1 with
    | none => exact ⟨false, rfl⟩
    | some u =>
      obtain ⟨b, hb⟩ := hps.1 u
      dsimp only
      rw [bind_of_ok hb]
      cases b with
      | false => exact ⟨false, rfl⟩
      | true => exact ih hps.2

/-- The evaluator compares values while a pair of collections is being compared. -/
def World.Pairs (w : World) (interp : Interp) : Prop :=
  ∀ pair ∈ w.heap.collectionPairs, pair ∉ w.comparing →
    ∀ x y, Decides (w.during pair) (interp.equals x y)

theorem Lists.exists_equals (hpairs : w.Pairs interp) (a : ListRef) (y : Value) :
    ∃ same, Lists.equals interp a [y] w = .ok (.bool same) w := by
  cases hy : w.heap.listRef? y with
  | none => exact ⟨false, Lists.equals_of_none hy⟩
  | some b =>
    have hitems : Decides w (guardComparing (.list a, .list b)
        (Lists.allEqual interp ((w.heap.list a).toList.zip (w.heap.list b).toList))) := by
      refine decides_guardComparing fun hnew => Lists.decides_allEqual fun p hp => ?_
      obtain ⟨ha, hb⟩ := List.of_mem_zip hp
      have hmem := Heap.list_mem_pairs (List.length_pos_of_mem ha) (List.length_pos_of_mem hb)
      exact hpairs _ hmem hnew p.1 p.2
    obtain ⟨same, hsame⟩ := hitems
    obtain ⟨answer, hanswer⟩ := exists_answer (a == b) _ same
    exact ⟨answer, Lists.equals_of_listRef? hy (fun _ _ heq => Option.some.inj heq ▸ hsame) hanswer⟩

theorem Tables.exists_equals (hpairs : w.Pairs interp) (a : TableRef) (y : Value) :
    ∃ same, Tables.equals interp a [y] w = .ok (.bool same) w := by
  cases hy : w.heap.tableRef? y with
  | none => exact ⟨false, Tables.equals_of_none hy⟩
  | some b =>
    by_cases hsize : (w.heap.table a).size = (w.heap.table b).size
    · have hentries : Decides w (guardComparing (.table a, .table b)
          (Tables.allEqual interp b (Tables.pairs (w.heap.table a)))) := by
        refine decides_guardComparing fun hnew => Tables.decides_allEqual fun p hp u => ?_
        rw [Tables.pairs, OrderedMap.values, List.map_map] at hp
        obtain ⟨e, he, -⟩ := List.mem_map.1 hp
        have hpos : 0 < (w.heap.table a).size := List.length_pos_of_mem he
        exact hpairs _ (Heap.table_mem_pairs hpos (hsize ▸ hpos)) hnew p.2 u
      obtain ⟨same, hsame⟩ := hentries
      obtain ⟨answer, hanswer⟩ := exists_answer (a == b) _ same
      exact ⟨answer,
        Tables.equals_of_tableRef? hy (fun _ _ heq => Option.some.inj heq ▸ hsame) hanswer⟩
    · -- hashes of different sizes are not looked into
      obtain ⟨answer, hanswer⟩ := exists_answer (a == b) _ true
      exact ⟨answer, Tables.equals_of_tableRef? hy (fun heq => absurd heq hsize) hanswer⟩

/-- Comparing two values ends at a depth beyond the pairs that are left. -/
theorem exists_send_equals {n : Nat} (hd : w.heap.CoreDisplay) (hn : w.uncompared < n)
    (x y : Value) : ∃ same, (interpreter n).send x "==" [y] none w = .ok (.bool same) w := by
  induction n generalizing w x y with
  | zero => exact absurd hn (Nat.not_lt_zero _)
  | succ n ih =>
    have hpairs : w.Pairs (interpreter n) := by
      intro pair hpair hnew u u'
      have hlt : (w.during pair).uncompared < w.uncompared := remaining_cons_lt hpair hnew
      obtain ⟨same, hsame⟩ := ih (w := w.during pair) hd (by omega) u u'
      exact ⟨same, Interp.equals_of_send hsame⟩
    have hall : ∀ i < Core.heap.classes.size, (Core.builtin? ⟨i⟩ "==").all fun b =>
        b ∈ [.object .equals, .array .equals, .hash .equals] ∧ b.owner = ⟨i⟩ := by
      decide +kernel
    have hname : "==" ∈ Core.displayNames := by decide
    obtain ⟨k, b, hm, hb, hlt, hx⟩ := hd.exists_methodOf hname rfl x
    have hin := hall k.index hlt
    rw [hb, Option.all_some, decide_eq_true_iff] at hin
    obtain ⟨hmem, hk⟩ := hin
    obtain rfl : b.owner = k := hk
    rw [Interp.send_of_methodOf hm]
    simp only [List.mem_cons, List.not_mem_nil, or_false] at hmem
    rcases hmem with rfl | rfl | rfl
    · exact ⟨w.heap.equal x y, rfl⟩
    · obtain ⟨a, ha⟩ := hx.exists_listRef?
      obtain ⟨same, hsame⟩ := Lists.exists_equals hpairs a y
      exact ⟨same, (bind_of_ok (needs_of_some ha) _).trans hsame⟩
    · obtain ⟨a, ha⟩ := hx.exists_tableRef?
      obtain ⟨same, hsame⟩ := Tables.exists_equals hpairs a y
      exact ⟨same, (bind_of_ok (needs_of_some ha) _).trans hsame⟩

end Comparisons

/-! ## All messages -/

namespace Heap

/-- A bound on how deep showing and comparing the values of a heap can go. -/
def displayDepth (h : Heap) : Nat :=
  max (h.lists.size + h.tables.size + h.objects.size + 1) h.pairCount

end Heap

/-- However the values of a heap contain one another, they are shown, printed, joined, compared and
hashed without failure where nobody has redefined these messages. Texts are added and lines are
written, and nothing else changes. -/
theorem display_ends (w : World) (hd : w.heap.CoreDisplay) (hwrite : w.host.write.TakesAll)
    {n : Nat} (hn : w.heap.displayDepth < n) :
    (∀ v, ∀ name ∈ ["inspect", "to_s"], ∃ s texts,
      (interpreter n).send v name [] none w = .ok s (w.adding texts)) ∧
    (∀ self args, ∃ text texts, (interpreter n).send self "puts" args none w =
      .ok .nil { w.adding texts with given := text :: w.given, output := w.output ++ text }) ∧
    (∀ v args, Core.array ∈ w.heap.ancestors (w.heap.answerClass v) → w.heap.Separates args →
      ∃ s texts, (interpreter n).send v "join" args none w = .ok s (w.adding texts)) ∧
    (∀ x y, ∃ same, (interpreter n).send x "==" [y] none w = .ok (.bool same) w) ∧
    ∀ v, (∀ m, w.heap.lists.size ≤ m → w.heap.keyWithin m [] v = some (w.heap.key v)) ∧
      (interpreter n).send v "hash" [] none w = .ok (.int (w.heap.key v).code) w := by
  have hcells : w.unshown + 1 < n := by
    have hle := remaining_le w.heap.cells w.inspecting
    rw [w.heap.length_cells] at hle
    exact (Nat.succ_le_succ hle).trans_lt ((Nat.le_max_left _ _).trans_lt hn)
  have hpairs : w.uncompared < n := by
    have hle := remaining_le w.heap.collectionPairs w.comparing
    rw [Heap.length_collectionPairs] at hle
    exact hle.trans_lt ((Nat.le_max_right _ _).trans_lt hn)
  refine ⟨fun v name hname => ?_, exists_send_puts hd hwrite hcells, fun v args harray hargs => ?_,
    exists_send_equals hd hpairs, fun v => ⟨fun m hm => Heap.keyWithin_of_le hm v, ?_⟩⟩
  · exact (gives_send_text hd (by omega) hname v).exists_ok
  · exact (gives_send_join hd hcells harray hargs).exists_ok
  · obtain ⟨n, rfl⟩ : ∃ k, n = k + 1 := ⟨n - 1, by omega⟩
    have honly : ∀ i < Core.heap.classes.size, i ≠ Core.object.index →
        Core.builtin? ⟨i⟩ "hash" = none := by decide +kernel
    obtain ⟨hm, -⟩ := hd.methodOf_of_only (b := .object .hashCode) (by decide) rfl honly
      (hd.object_mem_ancestors v)
    rw [Interp.send_of_methodOf hm]
    rfl

/-! ## A heap where everything holds itself -/

namespace Heap

/-- A subclass of `Array`, one of `Hash` and a class of plain objects, with an instance of each. The
array, the hash and the plain object hold one another and themselves. -/
def tangled : Heap :=
  { Core.heap with
    texts := ⟨#[", "]⟩
    lists := ⟨#[#[.array ⟨0⟩, .hash ⟨0⟩, .object ⟨1⟩, .object ⟨2⟩, .object ⟨3⟩, .str ⟨0⟩]]⟩
    tables := ⟨#[.ofList [(.symbol "k", ⟨.symbol "k", .hash ⟨0⟩⟩),
      (.identity (.object ⟨3⟩), ⟨.object ⟨3⟩, .array ⟨0⟩⟩)]]⟩
    objects := ⟨#[{ klass := Core.object }, { klass := ⟨15⟩, base := some (.array ⟨0⟩) },
      { klass := ⟨16⟩, base := some (.hash ⟨0⟩) },
      { klass := ⟨17⟩, slots := .ofList [("@a", .object ⟨3⟩), ("@b", .array ⟨0⟩)] }]⟩
    classes := ((Core.heap.classes.push { name := "Bag", superclass := some Core.array }).push
      { name := "Dict", superclass := some Core.hash }).push
      { name := "Point", superclass := some Core.object } }

theorem klass_tangled_of_lt {c : ClassRef} (hc : c.index < Core.heap.classes.size) :
    tangled.klass c = Core.heap.klass c := by
  unfold klass tangled
  rw [Store.get_push_of_lt, Store.get_push_of_lt, Store.get_push_of_lt]
  · exact hc
  · rw [Store.size_push]
    omega
  · rw [Store.size_push, Store.size_push]
    omega

/-- The other classes of the tangled heap have no methods. -/
theorem klass_tangled_of_le {c : ClassRef} (hc : Core.heap.classes.size ≤ c.index) :
    (tangled.klass c).methods = .empty ∧ (tangled.klass c).singleton = none := by
  obtain ⟨i⟩ := c
  by_cases hi : tangled.classes.size ≤ i
  · have hdefault : tangled.klass ⟨i⟩ = default := Store.get_of_size_le hi
    rw [hdefault]
    exact ⟨rfl, rfl⟩
  · have hcore : 15 ≤ i := hc
    have hlast : i < 18 := Nat.lt_of_not_le hi
    obtain rfl | rfl | rfl : i = 15 ∨ i = 16 ∨ i = 17 := by omega
    all_goals exact ⟨rfl, rfl⟩

/-- What the class of an object of the tangled heap descends from. -/
theorem lineage_tangled (r : ObjectRef) :
    let lineage := tangled.ancestors (tangled.methodClass r)
    Core.object ∈ lineage ∧ (lineage.filter (Core.valueClasses.contains ·) = [] ∨
      lineage.filter (Core.valueClasses.contains ·) = [Core.array] ∧ r = ⟨1⟩ ∨
      lineage.filter (Core.valueClasses.contains ·) = [Core.hash] ∧ r = ⟨2⟩) := by
  obtain ⟨i⟩ := r
  match i with
  | 0 | 1 | 2 | 3 => decide +kernel
  | i + 4 =>
    have hobject : tangled.object ⟨i + 4⟩ = default := Store.get_of_size_le (Nat.le_add_left 4 i)
    have hclass : tangled.methodClass ⟨i + 4⟩ = Core.object := by
      rw [methodClass, hobject]
      rfl
    rw [hclass]
    exact ⟨by decide +kernel, .inl (by decide +kernel)⟩

theorem coreDisplay_tangled : tangled.CoreDisplay where
  superclass c hc := by rw [klass_tangled_of_lt hc]
  method name _ c := by
    by_cases hc : c.index < Core.heap.classes.size
    · rw [klass_tangled_of_lt hc]
    · have hdefault : Core.heap.klass c = default := Store.get_of_size_le (Nat.le_of_not_lt hc)
      rw [(klass_tangled_of_le (Nat.le_of_not_lt hc)).1, hdefault]
      rfl
  singleton name _ c s hs := by
    have hcore : ∀ i < Core.heap.classes.size, (Core.heap.klass ⟨i⟩).singleton = none := by
      decide +kernel
    by_cases hc : c.index < Core.heap.classes.size
    · rw [klass_tangled_of_lt hc] at hs
      cases (hcore c.index hc).symm.trans hs
    · cases (klass_tangled_of_le (Nat.le_of_not_lt hc)).2.symm.trans hs
  descends r := (lineage_tangled r).1
  backed r k hk hmem := by
    have hin := List.mem_filter.2 ⟨hmem, List.contains_iff_mem.2 hk⟩
    rcases (lineage_tangled r).2 with hnone | ⟨hone, rfl⟩ | ⟨hone, rfl⟩
    · rw [hnone] at hin
      cases hin
    · rw [hone, List.mem_singleton] at hin
      exact hin ▸ ⟨by decide, .array ⟨0⟩⟩
    · rw [hone, List.mem_singleton] at hin
      exact hin ▸ ⟨by decide, .hash ⟨0⟩⟩

end Heap

/-- Values of the tangled heap are shown, printed, joined, compared and hashed. -/
theorem display_ends_tangled :
    (∃ s texts, (interpreter 9).send (.object ⟨3⟩) "inspect" [] none { heap := Heap.tangled } =
      .ok s (World.adding { heap := Heap.tangled } texts)) ∧
    (∃ s texts, (interpreter 9).send (.object ⟨2⟩) "to_s" [] none { heap := Heap.tangled } =
      .ok s (World.adding { heap := Heap.tangled } texts)) ∧
    (∃ text texts, (interpreter 9).send (.object Core.main) "puts" [.array ⟨0⟩, .hash ⟨0⟩] none
      { heap := Heap.tangled } =
        .ok .nil { World.adding { heap := Heap.tangled } texts with
          given := [text], output := "" ++ text }) ∧
    (∃ s texts, (interpreter 9).send (.object ⟨1⟩) "join" [.str ⟨0⟩] none
      { heap := Heap.tangled } = .ok s (World.adding { heap := Heap.tangled } texts)) ∧
    (∃ same, (interpreter 9).send (.object ⟨1⟩) "==" [.array ⟨0⟩] none
      { heap := Heap.tangled } = .ok (.bool same) { heap := Heap.tangled }) ∧
    Heap.tangled.keyWithin 7 [] (.array ⟨0⟩) = some (Heap.tangled.key (.array ⟨0⟩)) := by
  obtain ⟨htext, hputs, hjoin, hequals, hkey⟩ := display_ends { heap := Heap.tangled }
    Heap.coreDisplay_tangled (fun _ _ => rfl) (n := 9) (by decide)
  refine ⟨htext _ _ (by decide), htext _ _ (by decide), hputs _ _, hjoin _ _ ?_ ?_, hequals _ _,
    (hkey _).1 7 (by decide)⟩
  · decide +kernel
  · exact .text _ ⟨0⟩ rfl

end Spinel
