import Spinel.Method.Array
import Spinel.Proofs.Run.Dispatch

/-!
# Methods of arrays on regular heaps

They keep the heap regular and give values that live, whatever the blocks do that they call
(`Lists.safe_run`).
-/

namespace Spinel

open Run

variable [Secrecy] {i j : Interp} {w : World} {n : Nat} {args : List Value} {receiver : Value}
  {call : Call}

/-! ## Arrays of values -/

section Items

variable {h : Heap} {items : Array Value} {v : Value}

theorem lives_emptyArray : Lives h (#[] : Array Value) :=
  fun _ hv => absurd hv (Array.not_mem_empty _)

theorem lives_getElem? (hi : Lives h items) (k : Nat) : Lives h items[k]? :=
  fun v hv => hi v (Array.mem_of_getElem? hv)

theorem lives_int (x : Int64) : Lives h (.int x : Value) := trivial

theorem lives_back? (hi : Lives h items) : Lives h items.back? :=
  fun v hv => hi v (Array.mem_of_back? hv)

theorem lives_extract (hi : Lives h items) (start stop : Nat) :
    Lives h (items.extract start stop) := by
  intro v hv
  obtain ⟨k, hk, rfl⟩ := Array.mem_extract_iff_getElem.1 hv
  exact hi _ (Array.getElem_mem _)

theorem lives_push (hi : Lives h items) (hv : Lives h v) : Lives h (items.push v) := by
  intro u hu
  rcases Array.mem_push.1 hu with hu | rfl
  · exact hi u hu
  · exact hv

theorem lives_append_array {items' : Array Value} (hi : Lives h items) (hi' : Lives h items') :
    Lives h (items ++ items') :=
  fun v hv => (Array.mem_append.1 hv).elim (hi v) (hi' v)

theorem lives_pop (hi : Lives h items) : Lives h items.pop := by
  rw [← lives_toList, Array.toList_pop]
  exact fun v hv => hi v (Array.mem_toList_iff.1 ((List.dropLast_sublist _).subset hv))

theorem lives_replicate (count : Nat) (hv : Lives h v) : Lives h (Array.replicate count v) :=
  fun _ hu => (Array.mem_replicate.1 hu).2 ▸ hv

theorem Lists.lives_written (hi : Lives h items) (place : Nat) (hv : Lives h v) :
    Lives h (written items place v) := by
  unfold written
  split
  · intro u hu
    rcases Array.mem_or_eq_of_mem_setIfInBounds hu with hu | rfl
    · exact hi u hu
    · exact hv
  · exact lives_push (lives_append_array hi (lives_replicate _ trivial)) hv

end Items

/-! ## Reading and writing -/

namespace Lists

variable {items : Array Value} {r : ListRef} {v : Value}

theorem safe_modifyList {f : Array Value → Array Value}
    (hf : ∀ items, Lives w.heap items → Lives w.heap (f items)) :
    Safe w (modifyHeap (·.modifyList r f)) (modifyHeap (·.modifyList r f)) :=
  tracks_modifyHeap fun hr => Heap.keeps_modifyList (hf _ (hr.lists r))

theorem safe_stretch (hi : Lives w.heap items) (place : Option (Nat × Nat)) :
    Safe w (stretch items place) (stretch items place) := by
  cases place with
  | some p => exact safe_newArray (lives_extract hi _ _)
  | none => exact tracks_pure trivial

theorem safe_index (hi : Lives w.heap items) :
    Safe w (index items args) (index items args) := by
  unfold index
  split
  · refine tracks_pure (lives_ofOption fun v hv => ?_)
    obtain ⟨k, -, hk⟩ := Option.bind_eq_some_iff.1 hv
    exact lives_getElem? hi k v hk
  · exact safe_stretch hi _
  · refine (asks_anything _).bind fun o _ => ?_
    split
    · exact safe_stretch hi _
    · exact tracks_fail _
  · exact tracks_fail _

theorem safe_storeAt (k : Int64) (hv : Lives w.heap v) :
    Safe w (storeAt r k v) (storeAt r k v) := by
  refine (asks_anything _).bind fun size _ => ?_
  refine tracks_refusal fun _ => ?_
  have hwrite := fun place => (safe_modifyList (w := w) (r := r)
    fun items hi => lives_written hi place hv).bind fun _ w' e _ => tracks_pure (hv.later e)
  split
  · exact (asks_checkSize _).bind fun _ _ => hwrite _
  · exact hwrite _

theorem safe_store (ha : Lives w.heap args) : Safe w (store r args) (store r args) := by
  unfold store
  split
  · next k v => exact safe_storeAt k (lives_cons.1 (lives_cons.1 ha).2).1
  · exact tracks_fail _
  · exact tracks_fail _

theorem safe_pushOne (hv : Lives w.heap receiver) (ha : Lives w.heap args) :
    Safe w (pushOne receiver args) (pushOne receiver args) := by
  refine (asks_single ha).bind fun v hv' => ?_
  refine (asks_needList hv).bind fun r _ => ?_
  refine (safe_modifyList fun items hi => lives_push hi hv').bind fun _ w' e _ => ?_
  exact tracks_pure (hv.later e)

theorem safe_push (hv : Lives w.heap receiver) (ha : Lives w.heap args) :
    Safe w (push receiver args) (push receiver args) := by
  refine (asks_needList hv).bind fun r _ => ?_
  refine (safe_modifyList fun items hi =>
    lives_append_array hi (lives_toArray.2 ha)).bind fun _ w' e _ => ?_
  exact tracks_pure (hv.later e)

theorem safe_pop : Safe w (pop r) (pop r) := by
  refine (asks_reading (Q := Lives) fun hr => lives_back? (hr.lists r)).bind fun last hlast => ?_
  refine (safe_modifyList fun items hi => lives_pop hi).bind fun _ w' e _ => ?_
  exact tracks_pure (lives_ofOption (hlast.later e))

theorem asks_needCount : Asks w (needCount v) Lives := by
  refine asks_needInt.andThen fun count _ => ?_
  dsimp only
  split
  · exact (asks_fail (Q := fun _ _ => False) _).andThen fun _ hfalse => hfalse.elim
  · exact asks_pure trivial

theorem safe_first (hi : Lives w.heap items) :
    Safe w (first items args) (first items args) := by
  unfold first
  split
  · exact tracks_pure (lives_ofOption (lives_getElem? hi 0))
  · exact asks_needCount.bind fun _ _ => safe_newArray (lives_extract hi _ _)
  · exact tracks_fail _

theorem safe_last (hi : Lives w.heap items) :
    Safe w (last items args) (last items args) := by
  unfold last
  split
  · exact tracks_pure (lives_ofOption (lives_back? hi))
  · exact asks_needCount.bind fun _ _ => safe_newArray (lives_extract hi _ _)
  · exact tracks_fail _

theorem safe_concat (hv : Lives w.heap receiver) (ha : Lives w.heap args) :
    Safe w (concat receiver args) (concat receiver args) := by
  refine (asks_single ha).bind fun v hv' => ?_
  refine (asks_needItems hv').bind fun other hother => ?_
  refine (asks_needItems hv).bind fun items hitems => ?_
  exact safe_newArray (lives_append_array hitems hother)

/-! ## Going through the items -/

/-- The items are read anew before each call of the block. -/
theorem safe_gather {σ : Type} [Refers σ] (hij : i.Agrees j) {block : Callable}
    {next : Nat → Value → List Value} {f : σ → Value → Value → σ}
    (hv : Lives w.heap receiver) (hb : Lives w.heap block)
    (hnext : ∀ (h : Heap) (k : Nat) (item : Value), Lives h item → Lives h (next k item))
    (hf : ∀ (h : Heap) (acc : σ) (item answer : Value), Lives h acc → Lives h item →
      Lives h answer → Lives h (f acc item answer))
    (n k : Nat) {acc : σ} (hacc : Lives w.heap acc) :
    Safe w (gather i receiver r block next f n k acc)
      (gather j receiver r block next f n k acc) := by
  induction n generalizing w k acc with
  | zero => exact tracks_outOfFuel
  | succ n ih =>
    refine (asks_reading (Q := Lives) fun hr => lives_getElem? (hr.lists r) k).bind fun o ho => ?_
    cases o with
    | none => exact tracks_pure hacc
    | some item =>
      have hitem : Lives w.heap item := lives_some.1 ho
      refine (Interp.safe_yieldTo hij hb hv (hnext _ k item hitem)).bind
        fun answer w' e hanswer => ?_
      exact ih (hv.later e) (hb.later e) (k + 1)
        (hf _ _ _ _ (hacc.later e) (hitem.later e) hanswer)

theorem safe_overItems {σ : Type} [Refers σ] (hij : i.Agrees j) (hc : Lives w.heap call)
    {f : σ → Value → Value → σ} {start : σ} (hs : Lives w.heap start)
    (hf : ∀ (h : Heap) (acc : σ) (item answer : Value), Lives h acc → Lives h item →
      Lives h answer → Lives h (f acc item answer)) :
    Safe w (overItems i n call f start) (overItems j n call f start) := by
  refine (asks_needBlock hc.2.2).bind fun block hb => ?_
  refine (asks_needList hc.1).bind fun r _ => ?_
  exact safe_gather hij hc.1 hb (fun _ _ _ hitem => lives_cons.2 ⟨hitem, lives_nil⟩) hf n 0 hs

theorem safe_each (hij : i.Agrees j) (hc : Lives w.heap call) :
    Safe w (each i n call) (each j n call) :=
  (safe_overItems hij hc trivial fun _ _ _ _ _ _ _ => trivial).bind
    fun _ _ e _ => tracks_pure (hc.1.later e)

theorem safe_eachWithIndex (hij : i.Agrees j) (hc : Lives w.heap call) :
    Safe w (eachWithIndex i n call) (eachWithIndex j n call) := by
  refine (asks_needBlock hc.2.2).bind fun block hb => ?_
  refine (asks_needList hc.1).bind fun r _ => ?_
  refine (safe_gather hij hc.1 hb (fun _ _ _ hitem => ?_) (fun _ _ _ _ _ _ _ => trivial) n 0
    trivial).bind fun _ _ e _ => tracks_pure (hc.1.later e)
  exact lives_cons.2 ⟨hitem, lives_cons.2 ⟨trivial, lives_nil⟩⟩

theorem safe_map (hij : i.Agrees j) (hc : Lives w.heap call) :
    Safe w (map i n call) (map j n call) :=
  (safe_overItems hij hc lives_emptyArray fun _ _ _ _ hacc _ hans => lives_push hacc hans).bind
    fun _ _ _ hitems => safe_newArray hitems

theorem safe_filter (wanted : Bool) (hij : i.Agrees j) (hc : Lives w.heap call) :
    Safe w (filter wanted i n call) (filter wanted j n call) := by
  refine (safe_overItems hij hc lives_emptyArray fun h acc item answer hacc hitem _ => ?_).bind
    fun _ _ _ hitems => safe_newArray hitems
  split
  · exact lives_push hacc hitem
  · exact hacc

/-! ## Folding -/

/-- Combining values from the left, where the world only has to be a later one than `w`. -/
theorem safe_fold {f g : Value → Value → Run Value}
    (hf : ∀ (w' : World) (acc item : Value), w.heap.Extends w'.heap → Lives w'.heap acc →
      Lives w'.heap item → Safe w' (f acc item) (g acc item))
    {acc : Value} (hacc : Lives w.heap acc) {items : List Value} (hi : Lives w.heap items) :
    Safe w (fold f acc items) (fold g acc items) := by
  have hloop : ∀ (items : List Value) (w' : World) (acc : Value), w.heap.Extends w'.heap →
      Lives w'.heap acc → Lives w'.heap items → Safe w' (fold f acc items) (fold g acc items) := by
    intro items
    induction items with
    | nil => exact fun w' acc _ hacc _ => tracks_pure hacc
    | cons item rest ih =>
      intro w' acc e hacc hi
      obtain ⟨hitem, hrest⟩ := lives_cons.1 hi
      refine (hf w' acc item e hacc hitem).bind fun acc' w'' e' hacc' => ?_
      exact ih w'' acc' (e.trans e') hacc' (hrest.later e')
  exact hloop items w acc (.refl _) hacc hi

theorem safe_foldFrom {f g : Value → Value → Run Value}
    (hf : ∀ (w' : World) (acc item : Value), w.heap.Extends w'.heap → Lives w'.heap acc →
      Lives w'.heap item → Safe w' (f acc item) (g acc item))
    {start : Option Value} (hs : Lives w.heap start) {items : List Value}
    (hi : Lives w.heap items) : Safe w (foldFrom f start items) (foldFrom g start items) := by
  unfold foldFrom
  split
  · exact safe_fold hf (lives_some.1 hs) hi
  · exact tracks_pure trivial
  · exact safe_fold hf (lives_cons.1 hi).1 (lives_cons.1 hi).2

theorem safe_reduce (hij : i.Agrees j) {items : List Value} (hi : Lives w.heap items)
    (hc : Lives w.heap call) : Safe w (reduce i items call) (reduce j items call) := by
  obtain ⟨receiver, args, block⟩ := call
  obtain ⟨hv, ha, hb⟩ := hc
  have hblock : ∀ block : Callable, Lives w.heap block → ∀ (w' : World) (acc item : Value),
      w.heap.Extends w'.heap → Lives w'.heap acc → Lives w'.heap item →
      Safe w' (i.yieldTo block receiver [acc, item]) (j.yieldTo block receiver [acc, item]) :=
    fun block hb w' acc item e hacc hitem => Interp.safe_yieldTo hij (hb.later e) (hv.later e)
      (lives_cons.2 ⟨hacc, lives_cons.2 ⟨hitem, lives_nil⟩⟩)
  have hname : ∀ (op : String) (w' : World) (acc item : Value), w.heap.Extends w'.heap →
      Lives w'.heap acc → Lives w'.heap item →
      Safe w' (i.send acc op [item] none) (j.send acc op [item] none) :=
    fun op w' acc item _ hacc hitem => Interp.safe_send hij hacc op
      (lives_cons.2 ⟨hitem, lives_nil⟩) lives_none
  unfold reduce
  dsimp only
  split
  · exact safe_foldFrom (hblock _ (lives_some.1 hb)) lives_none hi
  · exact safe_foldFrom (hblock _ (lives_some.1 hb)) (lives_some.2 (lives_cons.1 ha).1) hi
  · exact safe_foldFrom (hname _) lives_none hi
  · exact safe_foldFrom (hname _) (lives_some.2 (lives_cons.1 ha).1) hi
  all_goals exact tracks_fail _

theorem safe_addItem (hij : i.Agrees j) {block : Option Callable} {acc item : Value}
    (hv : Lives w.heap receiver) (hb : Lives w.heap block) (hacc : Lives w.heap acc)
    (hitem : Lives w.heap item) :
    Safe w
      (do
        let item ← match block with
          | some block => i.yieldTo block receiver [item]
          | none => pure item
        i.send acc "+" [item] none)
      (do
        let item ← match block with
          | some block => j.yieldTo block receiver [item]
          | none => pure item
        j.send acc "+" [item] none) := by
  cases block with
  | some block =>
    refine (Interp.safe_yieldTo hij (lives_some.1 hb) hv
      (lives_cons.2 ⟨hitem, lives_nil⟩)).bind fun item' w' e hitem' => ?_
    exact Interp.safe_send hij (hacc.later e) "+" (lives_cons.2 ⟨hitem', lives_nil⟩) lives_none
  | none =>
    exact Interp.safe_send hij hacc "+" (lives_cons.2 ⟨hitem, lives_nil⟩) lives_none

theorem safe_sum (hij : i.Agrees j) {items : List Value} (hi : Lives w.heap items)
    (hc : Lives w.heap call) : Safe w (sum i items call) (sum j items call) := by
  unfold sum
  dsimp only
  split
  · exact safe_fold (fun _ _ _ e hacc hitem =>
      safe_addItem hij (hc.1.later e) (hc.2.2.later e) hacc hitem) (lives_int 0) hi
  · next start hargs =>
    have hstart : Lives w.heap start := (lives_cons.1 (hargs ▸ hc.2.1)).1
    exact safe_fold (fun _ _ _ e hacc hitem =>
      safe_addItem hij (hc.1.later e) (hc.2.2.later e) hacc hitem) hstart hi
  · exact tracks_fail _

/-! ## Sorting -/

variable {order order' : Value → Value → Run Ordering}

theorem safe_merge (horder : ∀ (w : World) (x y : Value), Lives w.heap x → Lives w.heap y →
      Safe w (order x y) (order' x y)) {xs ys : List Value} (hx : Lives w.heap xs)
    (hy : Lives w.heap ys) : Safe w (merge order xs ys) (merge order' xs ys) := by
  fun_induction merge order xs ys generalizing w with
  | case1 ys =>
    unfold merge
    exact tracks_pure hy
  | case2 xs hne =>
    rw [merge]
    · exact tracks_pure hx
    · exact hne
  | case3 x xs y ys ih₁ ih₂ =>
    obtain ⟨hx₀, hxs⟩ := lives_cons.1 hx
    obtain ⟨hy₀, hys⟩ := lives_cons.1 hy
    rw [merge]
    refine (horder w y x hy₀ hx₀).bind fun o w' e _ => ?_
    split
    · exact (ih₁ (hx.later e) (hys.later e)).bind fun rest w'' e' hrest =>
        tracks_pure (lives_cons.2 ⟨hy₀.later (e.trans e'), hrest⟩)
    · exact (ih₂ (hxs.later e) (hy.later e)).bind fun rest w'' e' hrest =>
        tracks_pure (lives_cons.2 ⟨hx₀.later (e.trans e'), hrest⟩)

theorem safe_sorted (horder : ∀ (w : World) (x y : Value), Lives w.heap x → Lives w.heap y →
      Safe w (order x y) (order' x y)) {items : List Value} (hi : Lives w.heap items) :
    Safe w (sorted order items) (sorted order' items) := by
  induction hn : items.length using Nat.strongRecOn generalizing items w with
  | ind n ih =>
    rw [sorted.eq_def order, sorted.eq_def order']
    split
    · exact tracks_pure hi
    · have hleft : (items.take (items.length / 2)).length < n := by
        rw [List.length_take]
        omega
      have hright : (items.drop (items.length / 2)).length < n := by
        rw [List.length_drop]
        omega
      refine (ih _ hleft (fun v hv => hi v (List.mem_of_mem_take hv)) rfl).bind
        fun left w' e hl => ?_
      refine (ih _ hright (fun v hv => (hi v (List.mem_of_mem_drop hv)).later e) rfl).bind
        fun right w'' e' hr => ?_
      exact safe_merge horder (hl.later e') hr

theorem safe_extreme (hij : i.Agrees j) (wanted : Ordering) {best : Option Value}
    (hbest : Lives w.heap best) {items : List Value} (hi : Lives w.heap items) :
    Safe w (extreme i wanted best items) (extreme j wanted best items) := by
  induction items generalizing w best with
  | nil =>
    unfold extreme
    exact tracks_pure (lives_ofOption hbest)
  | cons item rest ih =>
    obtain ⟨hitem, hrest⟩ := lives_cons.1 hi
    cases best with
    | none => exact ih (lives_some.2 hitem) hrest
    | some best =>
      refine (Interp.safe_order hij hitem (lives_some.1 hbest)).bind fun o w' e _ => ?_
      refine ih (lives_some.2 ?_) (hrest.later e)
      split
      · exact hitem.later e
      · exact (lives_some.1 hbest).later e

/-! ## Text and equality -/

theorem safe_includes (hij : i.Agrees j) {needle : Value} (hn : Lives w.heap needle)
    {items : List Value} (hi : Lives w.heap items) :
    Safe w (includes i needle items) (includes j needle items) := by
  induction items generalizing w with
  | nil => exact tracks_pure trivial
  | cons item rest ih =>
    obtain ⟨hitem, hrest⟩ := lives_cons.1 hi
    refine (Interp.safe_equals hij hitem hn).bind fun b w' e _ => ?_
    split
    · exact tracks_pure trivial
    · exact ih (hn.later e) (hrest.later e)

theorem safe_texts (hij : i.Agrees j) {nested nested' : ListRef → Run String}
    (hnested : ∀ (w : World) (r : ListRef), Lives w.heap r → Safe w (nested r) (nested' r))
    {items : List Value} (hi : Lives w.heap items) :
    Safe w (joined.texts i nested items) (joined.texts j nested' items) := by
  induction items generalizing w with
  | nil => exact tracks_pure lives_nil
  | cons item rest ih =>
    obtain ⟨hitem, hrest⟩ := lives_cons.1 hi
    have hcons : ∀ (s : String) (w' : World), w.heap.Extends w'.heap →
        Safe w' (joined.texts i nested rest >>= fun ss => pure (s :: ss))
          (joined.texts j nested' rest >>= fun ss => pure (s :: ss)) :=
      fun s w' e => (ih (hrest.later e)).bind
        fun ss _ _ hss => tracks_pure (lives_cons.2 ⟨trivial, hss⟩)
    unfold joined.texts
    split
    · exact (hnested w _ hitem).bind fun s w' e _ => hcons s w' e
    · exact hcons "" w (.refl _)
    · exact (Interp.safe_text hij hitem).bind fun s w' e _ => hcons s w' e

theorem safe_joined (hij : i.Agrees j) (sep : String) (n : Nat) (r : ListRef) :
    Safe w (joined i sep n r) (joined j sep n r) := by
  induction n generalizing w r with
  | zero => exact tracks_outOfFuel
  | succ n ih =>
    refine (asks_items r).bind fun items hi => ?_
    refine Tracks.guardInspecting trivial fun w' hw' => ?_
    refine (safe_texts hij (fun w r _ => ih r) (hw' ▸ lives_toList.2 hi)).bind fun _ _ _ _ => ?_
    exact tracks_pure trivial

theorem safe_join (hij : i.Agrees j) (r : ListRef) :
    Safe w (join i n r args) (join j n r args) := by
  unfold join
  split
  · exact (safe_joined hij "" n r).bind fun s _ _ _ => safe_newText s
  · exact asks_needText.bind fun sep _ =>
      (safe_joined hij sep n r).bind fun s _ _ _ => safe_newText s
  · exact tracks_fail _

theorem safe_inspect (hij : i.Agrees j) (r : ListRef) :
    Safe w (inspect i r) (inspect j r) := by
  refine (asks_items r).bind fun items hi => ?_
  refine Tracks.bind (Q := Lives) (Tracks.guardInspecting trivial fun w' hw' => ?_)
    fun s _ _ _ => safe_newText s
  exact (Interp.safe_inspectAll hij (hw' ▸ lives_toList.2 hi)).bind
    fun _ _ _ _ => tracks_pure trivial

theorem safe_allEqual (hij : i.Agrees j) {pairs : List (Value × Value)}
    (hp : Lives w.heap pairs) : Safe w (allEqual i pairs) (allEqual j pairs) := by
  induction pairs generalizing w with
  | nil => exact tracks_pure trivial
  | cons p rest ih =>
    obtain ⟨hpair, hrest⟩ := lives_cons.1 hp
    refine (Interp.safe_equals hij hpair.1 hpair.2).bind fun b w' e _ => ?_
    split
    · exact ih (hrest.later e)
    · exact tracks_pure trivial

theorem safe_equals (hij : i.Agrees j) (r : ListRef) (ha : Lives w.heap args) :
    Safe w (equals i r args) (equals j r args) := by
  refine (asks_single ha).bind fun other hother => ?_
  refine (asks_reading (Q := Lives) fun hr => hr.lives_listRef? hother).bind fun o _ => ?_
  cases o with
  | none => exact tracks_pure trivial
  | some s =>
    dsimp only
    split
    · exact tracks_pure trivial
    · refine (asks_items r).bind fun xs hx => ?_
      refine (asks_items s).bind fun ys hy => ?_
      split
      · exact tracks_pure trivial
      · refine (Tracks.guardComparing fun w' hw' => ?_).bind fun _ _ _ _ => tracks_pure trivial
        refine safe_allEqual hij fun p hp => ?_
        rw [hw']
        exact ⟨hx p.1 (Array.mem_toList_iff.1 (List.of_mem_zip hp).1),
          hy p.2 (Array.mem_toList_iff.1 (List.of_mem_zip hp).2)⟩

/-! ## All methods of arrays -/

theorem safe_run (hij : i.Agrees j) (m : ArrayMethod) (hc : Lives w.heap call) :
    Safe w (run i n m call) (run j n m call) := by
  have hitems := asks_needItems hc.1
  have hlist := asks_needList hc.1
  cases m with
  | itself => exact tracks_pure hc.1
  | index => exact hitems.bind fun _ hi => safe_index hi
  | store => exact hlist.bind fun _ _ => safe_store hc.2.1
  | pushOne => exact safe_pushOne hc.1 hc.2.1
  | push => exact safe_push hc.1 hc.2.1
  | pop => exact hlist.bind fun _ _ => safe_pop
  | clear =>
    exact hlist.bind fun r _ => (safe_modifyList fun _ _ => lives_emptyArray).bind
      fun _ _ e _ => tracks_pure (hc.1.later e)
  | first => exact hitems.bind fun _ hi => safe_first hi
  | last => exact hitems.bind fun _ hi => safe_last hi
  | each => exact safe_each hij hc
  | eachWithIndex => exact safe_eachWithIndex hij hc
  | map => exact safe_map hij hc
  | select => exact safe_filter true hij hc
  | reject => exact safe_filter false hij hc
  | reduce => exact hitems.bind fun _ hi => safe_reduce hij (lives_toList.2 hi) hc
  | sum => exact hitems.bind fun _ hi => safe_sum hij (lives_toList.2 hi) hc
  | sort =>
    refine hitems.bind fun items hi => ?_
    exact (safe_sorted (fun _ _ _ hx hy => Interp.safe_order hij hx hy) (lives_toList.2 hi)).bind
      fun _ _ _ hs => safe_newList hs
  | least => exact hitems.bind fun _ hi => safe_extreme hij .lt lives_none (lives_toList.2 hi)
  | greatest => exact hitems.bind fun _ hi => safe_extreme hij .gt lives_none (lives_toList.2 hi)
  | size => exact hitems.bind fun _ _ => tracks_pure trivial
  | isEmpty => exact hitems.bind fun _ _ => tracks_pure trivial
  | includes =>
    refine (asks_single hc.2.1).bind fun needle hn => ?_
    refine hitems.bind fun items hi => ?_
    exact (safe_includes hij hn (lives_toList.2 hi)).bind fun _ _ _ _ => tracks_pure trivial
  | join => exact hlist.bind fun r _ => safe_join hij r
  | inspect => exact hlist.bind fun r _ => safe_inspect hij r
  | reverse =>
    exact hitems.bind fun _ hi => safe_newArray fun v hv => hi v (Array.mem_reverse.1 hv)
  | concat => exact safe_concat hc.1 hc.2.1
  | equals => exact hlist.bind fun r _ => safe_equals hij r hc.2.1

end Lists

end Spinel
