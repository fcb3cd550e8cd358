import Spinel.Proofs.Run.Tracks

/-!
# The parts that methods are made of

What all methods build on, making values and asking for receivers and arguments, keeps heaps regular
and gives values that live.
-/

namespace Spinel

variable [Secrecy] {α σ : Type} {w : World} {v : Value} {args : List Value}

/-! ## New cells -/

namespace Heap

variable {h : Heap}

theorem lives_newList (items : Array Value) : Lives (h.newList items).2 (h.newList items).1 :=
  Store.size_lt_push h.lists items

theorem lives_newTable (t : Table) : Lives (h.newTable t).2 (h.newTable t).1 :=
  Store.size_lt_push h.tables t

theorem lives_newObject (o : Instance) : Lives (h.newObject o).2 (h.newObject o).1 :=
  Store.size_lt_push h.objects o

theorem lives_newScope (s : Scope) : Lives (h.newScope s).2 (h.newScope s).1 :=
  Store.size_lt_push h.scopes s

end Heap

namespace Run

/-! ## New values -/

theorem tracks_newText (s : String) :
    Tracks w (newText s) (newText s) fun h v => ∃ r : TextRef, v = .str r ∧ Lives h r :=
  (tracks_alloc (Q := Lives) (fun _ => Heap.keeps_newText s)
    fun hr => Heap.lives_newText hr s).bind fun r _ _ hr => tracks_pure ⟨r, rfl, hr⟩

theorem safe_newText (s : String) : Safe w (newText s) (newText s) :=
  (tracks_newText s).mono fun _ _ ⟨_, hv, hr⟩ => hv ▸ hr

theorem tracks_newArray {items : Array Value} (hi : Lives w.heap items) :
    Tracks w (newArray items) (newArray items) fun h v => ∃ r : ListRef, v = .array r ∧ Lives h r :=
  (tracks_alloc (Q := Lives) (fun _ => Heap.keeps_newList hi)
    fun _ => Heap.lives_newList items).bind fun r _ _ hr => tracks_pure ⟨r, rfl, hr⟩

theorem safe_newArray {items : Array Value} (hi : Lives w.heap items) :
    Safe w (newArray items) (newArray items) :=
  (tracks_newArray hi).mono fun _ _ ⟨_, hv, hr⟩ => hv ▸ hr

theorem safe_newList {items : List Value} (hi : Lives w.heap items) :
    Safe w (newList items) (newList items) :=
  safe_newArray (lives_toArray.2 hi)

theorem safe_newTexts (texts : List String) : Safe w (newTexts texts) (newTexts texts) :=
  safe_forEach (fun _ s _ _ => safe_newText s) (fun _ _ => rfl) (fun _ _ => rfl) rfl rfl
    fun _ _ => trivial

/-- The keys of a new hash are copies, so it does not matter if they are kept from programs. -/
theorem tracks_newHash {pairs : List (Value × Value)}
    (hp : ∀ p ∈ pairs, w.heap.Shows p.1 ∧ Lives w.heap p.2) :
    Tracks w (newHash pairs) (newHash pairs)
      fun h v => ∃ r : TableRef, v = .hash r ∧ Lives h r := by
  intro hr
  obtain ⟨S', g, ht⟩ := Heap.reserves_insertPairs (t := .empty) hr (fun _ hc => hc)
    (fun _ hx => by cases hx) hp
  exact ⟨rfl, fun _ => g.newTable ht, _, rfl, Heap.lives_newTable _⟩

theorem safe_newHash {pairs : List (Value × Value)} (hp : Lives w.heap pairs) :
    Safe w (newHash pairs) (newHash pairs) :=
  (tracks_newHash fun p hmem => ⟨.of_lives (hp p hmem).1, (hp p hmem).2⟩).mono
    fun _ _ ⟨_, hv, hr⟩ => hv ▸ hr

theorem safe_newNative (n : Native) : Safe w (newNative n) (newNative n) :=
  fun _ => ⟨rfl, .refl _, trivial, rfl⟩

theorem safe_write (text : String) : Safe w (write text) (write text) := by
  rcases write_cases text w with hw | ⟨taken, message, hw⟩
  · exact tracks_of_ok hw hw (.refl _) trivial
  · exact tracks_of_error hw hw (.refl _)

theorem safe_randomBits : Safe w randomBits randomBits := fun _ => ⟨rfl, .refl _, trivial⟩

theorem safe_randomFloat : Safe w randomFloat randomFloat :=
  safe_randomBits.bind fun _ _ _ _ => tracks_pure trivial

theorem safe_randomBelow (bound : Nat) : Safe w (randomBelow bound) (randomBelow bound) :=
  safe_randomBits.bind fun _ _ _ _ => tracks_pure trivial

/-! ## Receivers and arguments -/

theorem asks_single (ha : Lives w.heap args) : Asks w (single args) Lives := by
  unfold single
  split
  · exact asks_pure (lives_cons.1 ha).1
  · exact asks_fail _

theorem asks_needBlock {block : Option Callable} (hb : Lives w.heap block) :
    Asks w (needBlock block) Lives :=
  asks_ofOption hb

theorem asks_needClass (hv : Lives w.heap v) :
    Asks w (needClass v) fun h c => Lives h (.klass c : Value) := by
  unfold needClass
  split
  · exact asks_pure hv
  · exact (asks_readingSome (Q := fun _ _ => True) fun _ _ => trivial).andThen
      fun _ _ => asks_fail _

theorem asks_needs [Refers α] {wanted : Shape} {f : Heap → Value → Option α}
    (hf : w.heap.Regular → Lives w.heap (f w.heap v)) : Asks w (needs wanted f v) Lives := by
  refine (asks_reading hf).andThen fun o ho => ?_
  cases o with
  | none => exact asks_fail _
  | some a => exact asks_pure (lives_some.1 ho)

theorem asks_needs_eq {wanted : Shape} {f : Heap → Value → Option α} :
    Asks w (needs wanted f v) fun h a => f h v = some a := by
  refine (asks_reading (Q := fun h o => f h v = o) fun _ => rfl).andThen fun o ho => ?_
  cases o with
  | none => exact asks_fail _
  | some a => exact asks_pure ho

theorem asks_needInt : Asks w (needInt v) Lives := asks_needs fun _ _ _ => trivial

theorem asks_needFloat : Asks w (needFloat v) Lives := asks_needs fun _ _ _ => trivial

theorem asks_needSymbol : Asks w (needSymbol v) Lives := asks_needs fun _ _ _ => trivial

theorem asks_needName : Asks w (needName v) Lives := asks_needs fun _ _ _ => trivial

theorem asks_needText : Asks w (needText v) Lives := asks_needs fun _ _ _ => trivial

theorem asks_needRange : Asks w (needRange v) Lives :=
  asks_needs fun _ _ _ => ⟨trivial, trivial⟩

theorem asks_needTextRef (hv : Lives w.heap v) : Asks w (needTextRef v) Lives :=
  asks_needs fun hr => hr.lives_textRef? hv

theorem asks_needList (hv : Lives w.heap v) : Asks w (needList v) Lives :=
  asks_needs fun hr => hr.lives_listRef? hv

theorem asks_needTable : Asks w (needTable v) fun h r => h.tableRef? v = some r :=
  asks_needs_eq

theorem asks_needProc (hv : Lives w.heap v) : Asks w (needProc v) Lives :=
  asks_needs fun hr => hr.lives_proc? hv

theorem asks_items (r : ListRef) : Asks w (reading (·.list r)) Lives :=
  asks_reading fun hr => hr.lists r

theorem asks_needItems (hv : Lives w.heap v) : Asks w (needItems v) Lives :=
  (asks_needList hv).andThen fun r _ => asks_items r

theorem asks_intArgument (ha : Lives w.heap args) : Asks w (intArgument args) Lives :=
  (asks_single ha).andThen fun _ _ => asks_needInt

theorem asks_textArgument (ha : Lives w.heap args) : Asks w (textArgument args) Lives :=
  (asks_single ha).andThen fun _ _ => asks_needText

theorem asks_needNames : Asks w (needNames args) Lives := by
  induction args with
  | nil => exact asks_pure lives_nil
  | cons v rest ih =>
    refine asks_needName.andThen fun name _ => ?_
    exact ih.andThen fun names hnames => asks_pure (lives_cons.2 ⟨trivial, hnames⟩)

theorem asks_exactly (x : Option Int64) : Asks w (exactly x) Lives :=
  (asks_ofOption (fun _ _ => trivial)).andThen fun _ _ => asks_pure trivial

theorem asks_checkSize (size : Nat) : Asks w (checkSize size) Lives := by
  refine (asks_anything _).andThen fun limit _ => ?_
  split
  · exact asks_fail _
  · exact asks_pure trivial

/-! ## Loops -/

theorem tracks_foldInts {step : Int} {f g : σ → Int64 → Run σ} {Q : Heap → σ → Prop}
    (hf : ∀ (w' : World) (acc : σ) (i : Int64), w.heap.Extends w'.heap → Q w'.heap acc →
      Tracks w' (f acc i) (g acc i) Q)
    (count : Nat) (i : Int) {acc : σ} (hacc : Q w.heap acc) :
    Tracks w (foldInts step f count i acc) (foldInts step g count i acc) Q := by
  have hloop : ∀ (count : Nat) (w' : World) (i : Int) (acc : σ), w.heap.Extends w'.heap →
      Q w'.heap acc →
      Tracks w' (foldInts step f count i acc) (foldInts step g count i acc) Q := by
    intro count
    induction count with
    | zero => exact fun w' i acc _ hacc => tracks_pure hacc
    | succ count ih =>
      intro w' i acc e hacc
      refine (hf w' acc _ e hacc).bind fun acc' w'' e' hacc' => ?_
      exact ih w'' _ acc' (e.trans e') hacc'
  exact hloop count w i acc (.refl _) hacc

end Run

end Spinel
