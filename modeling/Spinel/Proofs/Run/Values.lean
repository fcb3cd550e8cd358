import Spinel.Method.Hash
import Spinel.Method.Range
import Spinel.Method.Text
import Spinel.Proofs.Run.Arrays

/-!
# Methods of hashes, ranges, procs, numbers and texts on regular heaps

They keep the heap regular and give values that live, one theorem for all methods of each class.
-/

namespace Spinel

open Run

variable [S : Secrecy] {i j : Interp} {w : World} {args : List Value} {receiver v : Value}
  {call : Call}

/-! ## Hashes -/

namespace Tables

variable {h : Heap} {t : Table} {r : TableRef} {key value : Value}

theorem lives_values (ht : ∀ x ∈ t.entries, h.FiledAt r x.1 x.2) :
    Lives h (t.values.map (·.value)) := by
  refine lives_map fun e he => ?_
  obtain ⟨x, hx, rfl⟩ := List.mem_map.1 he
  exact (ht x hx).value

theorem lives_keys (ht : ∀ x ∈ t.entries, h.FiledAt r x.1 x.2) (hopen : ¬S.discreet r) :
    Lives h (t.values.map (·.key)) := by
  refine lives_map fun e he => ?_
  obtain ⟨x, hx, rfl⟩ := List.mem_map.1 he
  exact (ht x hx).known hopen

/-- The pairs of a table, of which the keys may be kept from programs. -/
theorem shows_pairs (ht : ∀ x ∈ t.entries, h.FiledAt r x.1 x.2) :
    ∀ p ∈ pairs t, h.Shows p.1 ∧ Lives h p.2 := by
  intro p hp
  obtain ⟨e, he, rfl⟩ := List.mem_map.1 hp
  obtain ⟨x, hx, rfl⟩ := List.mem_map.1 he
  exact ⟨(ht x hx).key, (ht x hx).value⟩

theorem lives_pairs (ht : ∀ x ∈ t.entries, h.FiledAt r x.1 x.2) (hopen : ¬S.discreet r) :
    Lives h (pairs t) := by
  intro p hp
  obtain ⟨e, he, rfl⟩ := List.mem_map.1 hp
  obtain ⟨x, hx, rfl⟩ := List.mem_map.1 he
  exact ⟨(ht x hx).known hopen, (ht x hx).value⟩

theorem lives_lookUp (ht : ∀ x ∈ t.entries, h.FiledAt r x.1 x.2) (key : Value) :
    Lives h (lookUp h t key) := by
  intro v hv
  obtain ⟨e, he, rfl⟩ := Option.map_eq_some_iff.1 hv
  exact (ht _ (OrderedMap.get?_eq_some_iff.1 he)).value

theorem asks_table (r : TableRef) :
    Asks w (reading (·.table r)) fun h t => ∀ x ∈ t.entries, h.FiledAt r x.1 x.2 :=
  asks_reading fun hr => hr.tables r

theorem asks_needEntries : Asks w (needEntries v) fun h t =>
    ∃ r, h.tableRef? v = some r ∧ ∀ x ∈ t.entries, h.FiledAt r x.1 x.2 := by
  refine asks_needTable.andThen fun r hr => ?_
  exact asks_reading fun hreg => ⟨r, hr, hreg.tables r⟩

theorem safe_put (hk : Lives w.heap key) (hv : Lives w.heap value) :
    Safe w (put r key value) (put r key value) := by
  refine tracks_modifyHeap fun hr => ?_
  dsimp only
  split
  · next e he => exact Heap.keeps_setValue he hv
  · exact Heap.keeps_addEntry hk hv

theorem safe_store (ha : Lives w.heap args) :
    Safe w (store receiver args) (store receiver args) := by
  unfold store
  split
  · obtain ⟨hk, hrest⟩ := lives_cons.1 ha
    have hvalue := (lives_cons.1 hrest).1
    refine asks_needTable.bind fun r _ => ?_
    exact (safe_put hk hvalue).bind fun _ _ e _ => tracks_pure (hvalue.later e)
  · exact tracks_fail _

theorem safe_delete (ha : Lives w.heap args) :
    Safe w (delete receiver args) (delete receiver args) := by
  refine (asks_single ha).bind fun key _ => ?_
  refine asks_needTable.bind fun r _ => ?_
  refine (asks_reading (Q := Lives) fun hr => lives_lookUp (hr.tables r) key).bind
    fun value hvalue => ?_
  refine (tracks_modifyHeap fun _ => Heap.keeps_eraseEntry _).bind fun _ _ e _ => ?_
  exact tracks_pure (lives_ofOption (hvalue.later e))

theorem safe_pair (hk : Lives w.heap key) (hv : Lives w.heap value) :
    Safe w (newList [key, value]) (newList [key, value]) :=
  safe_newList (lives_cons.2 ⟨hk, lives_cons.2 ⟨hv, lives_nil⟩⟩)

theorem safe_overPairs (hij : i.Agrees j) {block : Callable} (hv : Lives w.heap receiver)
    (hb : Lives w.heap block) {pairs : List (Value × Value)} (hp : Lives w.heap pairs) :
    Safe w (overPairs i receiver block pairs) (overPairs j receiver block pairs) := by
  induction pairs generalizing w with
  | nil => exact tracks_pure lives_nil
  | cons p rest ih =>
    obtain ⟨hpair, hrest⟩ := lives_cons.1 hp
    refine (safe_pair hpair.1 hpair.2).bind fun pair w' e hpair' => ?_
    refine (Interp.safe_yieldTo hij (hb.later e) (hv.later e)
      (lives_cons.2 ⟨hpair', lives_nil⟩)).bind fun answer w'' e' hanswer => ?_
    have e'' := e.trans e'
    exact (ih (hv.later e'') (hb.later e'') (hrest.later e'')).bind fun answers _ f hanswers =>
      tracks_pure (lives_cons.2 ⟨hanswer.later f, hanswers⟩)

theorem safe_answers (hij : i.Agrees j) (hc : Lives w.heap call)
    (hopen : ∀ r, w.heap.tableRef? call.receiver = some r → ¬S.discreet r) :
    Safe w (answers i call) (answers j call) := by
  refine (asks_needBlock hc.2.2).bind fun block hb => ?_
  refine asks_needTable.bind fun r hr => ?_
  exact (asks_table r).bind fun t ht =>
    safe_overPairs hij hc.1 hb (lives_pairs ht (hopen r hr))

theorem safe_pairArrays {pairs : List (Value × Value)} (hp : Lives w.heap pairs) :
    Safe w (pairArrays pairs) (pairArrays pairs) :=
  safe_forEach (fun _ (p : Value × Value) _ (hp : Lives _ p.1 ∧ Lives _ p.2) =>
    safe_pair hp.1 hp.2) (fun _ _ => rfl) (fun _ _ => rfl) rfl rfl hp

theorem safe_merge (ha : Lives w.heap args) :
    Safe w (merge receiver args) (merge receiver args) := by
  refine (asks_single ha).bind fun v _ => ?_
  refine asks_needTable.bind fun other _ => ?_
  refine asks_needTable.bind fun r _ => ?_
  refine (asks_reading (Q := fun h ps => ∀ p ∈ ps, h.Shows p.1 ∧ Lives h p.2) fun hr => ?_).bind
    fun _ hp => (tracks_newHash hp).mono fun _ _ ⟨_, hv, hr⟩ => hv ▸ hr
  exact List.forall_mem_append.2 ⟨shows_pairs (hr.tables r), shows_pairs (hr.tables other)⟩

theorem shows_later {h' : Heap} {pairs : List (Value × Value)}
    (hp : ∀ p ∈ pairs, h.Shows p.1 ∧ Lives h p.2) (e : h.Extends h') :
    ∀ p ∈ pairs, h'.Shows p.1 ∧ Lives h' p.2 :=
  fun p hmem => ⟨(hp p hmem).1.later e, (hp p hmem).2.later e⟩

theorem safe_pairTexts (hij : i.Agrees j) {pairs : List (Value × Value)}
    (hp : ∀ p ∈ pairs, w.heap.Shows p.1 ∧ Lives w.heap p.2) :
    Safe w (pairTexts i pairs) (pairTexts j pairs) := by
  induction pairs generalizing w with
  | nil => exact tracks_pure lives_nil
  | cons p rest ih =>
    obtain ⟨hpair, hrest⟩ := List.forall_mem_cons.1 hp
    refine (Interp.safe_inspectKey hij hpair.1).bind fun k w' e _ => ?_
    refine (Interp.safe_inspect hij (hpair.2.later e)).bind fun s w'' e' _ => ?_
    exact (ih (shows_later hrest (e.trans e'))).bind fun _ _ _ hmore =>
      tracks_pure (lives_cons.2 ⟨trivial, hmore⟩)

theorem safe_inspect (hij : i.Agrees j) (r : TableRef) :
    Safe w (inspect i r) (inspect j r) := by
  refine (asks_reading (Q := fun h ps => ∀ p ∈ ps, h.Shows p.1 ∧ Lives h p.2)
    fun hr => shows_pairs (hr.tables r)).bind fun entries hp => ?_
  refine Tracks.bind (Q := Lives) (Tracks.guardInspecting trivial fun w' hw' => ?_)
    fun s _ _ _ => safe_newText s
  exact (safe_pairTexts hij (hw' ▸ hp)).bind fun _ _ _ _ => tracks_pure trivial

theorem safe_allEqual (hij : i.Agrees j) (other : TableRef) {pairs : List (Value × Value)}
    (hp : ∀ p ∈ pairs, w.heap.Shows p.1 ∧ Lives w.heap p.2) :
    Safe w (allEqual i other pairs) (allEqual j other pairs) := by
  induction pairs generalizing w with
  | nil => exact tracks_pure trivial
  | cons p rest ih =>
    obtain ⟨hpair, hrest⟩ := List.forall_mem_cons.1 hp
    refine (asks_reading (Q := Lives) fun hr => lives_lookUp (hr.tables other) p.1).bind
      fun o ho => ?_
    cases o with
    | none => exact tracks_pure trivial
    | some theirs =>
      refine (Interp.safe_equals hij hpair.2 (lives_some.1 ho)).bind fun b w' e _ => ?_
      split
      · exact ih (shows_later hrest e)
      · exact tracks_pure trivial

theorem safe_equals (hij : i.Agrees j) (r : TableRef) (ha : Lives w.heap args) :
    Safe w (equals i r args) (equals j r args) := by
  refine (asks_single ha).bind fun other hother => ?_
  refine (asks_reading (Q := Lives) fun hr => hr.lives_tableRef? hother).bind fun o _ => ?_
  cases o with
  | none => exact tracks_pure trivial
  | some s =>
    dsimp only
    split
    · exact tracks_pure trivial
    · refine (asks_table r).bind fun ours hours => ?_
      refine (asks_table s).bind fun theirs _ => ?_
      split
      · exact tracks_pure trivial
      · refine (Tracks.guardComparing fun w' hw' => ?_).bind fun _ _ _ _ => tracks_pure trivial
        exact safe_allEqual hij s (hw' ▸ shows_pairs hours)

/-- Methods that hand out keys may be called on tables whose keys programs may have. -/
theorem safe_run (hij : i.Agrees j) (m : HashMethod) (hc : Lives w.heap call)
    (hopen : m.handsOutKeys = true →
      ∀ r, w.heap.tableRef? call.receiver = some r → ¬S.discreet r) :
    Safe w (run i m call) (run j m call) := by
  have hentries := asks_needEntries (w := w) (v := call.receiver)
  have htable := asks_needTable (w := w) (v := call.receiver)
  cases m with
  | index =>
    refine (asks_single hc.2.1).bind fun key _ => ?_
    refine hentries.bind fun t ⟨r, _, ht⟩ => ?_
    exact (asks_reading (Q := Lives) fun _ => lives_lookUp ht key).bind
      fun _ hv => tracks_pure (lives_ofOption hv)
  | store => exact safe_store hc.2.1
  | delete => exact safe_delete hc.2.1
  | clear =>
    refine htable.bind fun r _ => ?_
    exact (tracks_modifyHeap fun _ => Heap.keeps_clearTable).bind
      fun _ _ e _ => tracks_pure (hc.1.later e)
  | size => exact hentries.bind fun _ _ => tracks_pure trivial
  | isEmpty => exact hentries.bind fun _ _ => tracks_pure trivial
  | hasKey =>
    refine (asks_single hc.2.1).bind fun key _ => ?_
    refine hentries.bind fun t _ => ?_
    exact (asks_anything _).bind fun _ _ => tracks_pure trivial
  | keys =>
    exact hentries.bind fun t ⟨r, hr, ht⟩ => safe_newList (lives_keys ht (hopen rfl r hr))
  | values => exact hentries.bind fun t ⟨r, _, ht⟩ => safe_newList (lives_values ht)
  | each =>
    exact (safe_answers hij hc (hopen rfl)).bind fun _ _ e _ => tracks_pure (hc.1.later e)
  | map => exact (safe_answers hij hc (hopen rfl)).bind fun _ _ _ hvs => safe_newList hvs
  | merge => exact safe_merge hc.2.1
  | toArray =>
    refine hentries.bind fun t ⟨r, hr, ht⟩ => ?_
    exact (safe_pairArrays (lives_pairs ht (hopen rfl r hr))).bind
      fun _ _ _ hvs => safe_newList hvs
  | inspect => exact htable.bind fun r _ => safe_inspect hij r
  | equals => exact htable.bind fun r _ => safe_equals hij r hc.2.1

end Tables

/-! ## Numbers -/

namespace Arithmetic

theorem asks_operate {x y : Value} {onInts : Int64 → Int64 → Run Value}
    {onFloats : Float → Float → Float} (hints : ∀ a b, Asks w (onInts a b) Lives) :
    Asks w (operate x y onInts onFloats) Lives := by
  unfold operate
  split
  · exact hints _ _
  · exact asks_pure trivial
  · exact asks_pure trivial
  · exact asks_pure trivial
  · exact asks_fail _

theorem asks_divideInts (x y : Int64) : Asks w (divideInts x y) Lives := by
  unfold divideInts
  split
  · exact asks_fail _
  · exact asks_exactly _

theorem asks_moduloInts (x y : Int64) : Asks w (moduloInts x y) Lives := by
  unfold moduloInts
  split
  · exact asks_fail _
  · exact asks_pure trivial

theorem asks_powerInts (x y : Int64) : Asks w (powerInts x y) Lives := by
  unfold powerInts
  split
  · exact asks_pure trivial
  · exact asks_exactly _

theorem asks_comparison {x : Value} {test : Ordering → Bool} (ha : Lives w.heap args) :
    Asks w (comparison x args test) Lives := by
  refine (asks_single ha).andThen fun y _ => ?_
  split <;> exact asks_pure trivial

theorem lives_orderValue {h : Heap} (o : Option Ordering) : Lives h (orderValue o) := by
  cases o with
  | none => trivial
  | some o => cases o <;> trivial

theorem asks_negate : Asks w (negate v) Lives := by
  unfold negate
  split
  · exact asks_exactly _
  · exact asks_pure trivial
  · exact asks_fail _

theorem asks_absolute : Asks w (absolute v) Lives := by
  unfold absolute
  split
  · exact asks_exactly _
  · exact asks_pure trivial
  · exact asks_fail _

/-- The methods of all numbers leave the world alone. -/
theorem asks_run (m : NumericMethod) (hc : Lives w.heap call) : Asks w (run m call) Lives := by
  have hsingle := asks_single hc.2.1
  cases m with
  | add => exact hsingle.andThen fun _ _ => asks_operate fun _ _ => asks_exactly _
  | subtract => exact hsingle.andThen fun _ _ => asks_operate fun _ _ => asks_exactly _
  | multiply => exact hsingle.andThen fun _ _ => asks_operate fun _ _ => asks_exactly _
  | divide => exact hsingle.andThen fun _ _ => asks_operate asks_divideInts
  | modulo => exact hsingle.andThen fun _ _ => asks_operate asks_moduloInts
  | power => exact hsingle.andThen fun _ _ => asks_operate asks_powerInts
  | less | greater | atMost | atLeast => exact asks_comparison hc.2.1
  | compare => exact hsingle.andThen fun _ _ => asks_pure (lives_orderValue _)
  | negate => exact asks_negate
  | itself => exact asks_pure hc.1
  | absolute => exact asks_absolute
  | isZero => exact asks_pure trivial
  | toFloat => exact (asks_needs fun _ _ _ => trivial).andThen fun _ _ => asks_pure trivial

theorem safe_integerText (x : Int64) : Safe w (integerText x args) (integerText x args) := by
  unfold integerText
  split
  · exact safe_newText _
  · refine asks_needInt.bind fun base _ => ?_
    split
    · exact safe_newText _
    · exact tracks_fail _
  · exact tracks_fail _

theorem safe_loop (hij : i.Agrees j) {block : Callable} (hv : Lives w.heap receiver)
    (hb : Lives w.heap block) (step : Int) (count : Nat) (start : Int) :
    Safe w (loop i receiver block step count start) (loop j receiver block step count start) := by
  refine (tracks_foldInts (Q := Lives) (fun w' _ k e _ => ?_) count start trivial).bind
    fun _ _ e _ => tracks_pure (hv.later e)
  exact (Interp.safe_yieldTo hij (hb.later e) (hv.later e)
    (lives_cons.2 ⟨lives_int k, lives_nil⟩)).bind fun _ _ _ _ => tracks_pure trivial

theorem safe_times (hij : i.Agrees j) (hc : Lives w.heap call) :
    Safe w (times i call) (times j call) := by
  refine (asks_needBlock hc.2.2).bind fun block hb => ?_
  exact asks_needInt.bind fun x _ => safe_loop hij hc.1 hb _ _ _

theorem safe_upTo (hij : i.Agrees j) (hc : Lives w.heap call) :
    Safe w (upTo i call) (upTo j call) := by
  refine (asks_intArgument hc.2.1).bind fun limit _ => ?_
  refine (asks_needBlock hc.2.2).bind fun block hb => ?_
  exact asks_needInt.bind fun x _ => safe_loop hij hc.1 hb _ _ _

theorem safe_downTo (hij : i.Agrees j) (hc : Lives w.heap call) :
    Safe w (downTo i call) (downTo j call) := by
  refine (asks_intArgument hc.2.1).bind fun limit _ => ?_
  refine (asks_needBlock hc.2.2).bind fun block hb => ?_
  exact asks_needInt.bind fun x _ => safe_loop hij hc.1 hb _ _ _

theorem safe_runInteger (hij : i.Agrees j) (m : IntegerMethod) (hc : Lives w.heap call) :
    Safe w (runInteger i m call) (runInteger j m call) := by
  have hint := asks_needInt (w := w) (v := call.receiver)
  have harg := asks_intArgument hc.2.1
  cases m with
  | itself => exact tracks_pure hc.1
  | times => exact safe_times hij hc
  | upTo => exact safe_upTo hij hc
  | downTo => exact safe_downTo hij hc
  | bitAnd | bitOr | bitXor =>
    exact hint.bind fun _ _ => harg.bind fun _ _ => tracks_pure trivial
  | shiftLeft | shiftRight =>
    exact hint.bind fun _ _ => harg.bind fun _ _ => (asks_exactly _).tracks
  | isEven | isOdd => exact hint.bind fun _ _ => tracks_pure trivial
  | successor | predecessor => exact hint.bind fun _ _ => (asks_exactly _).tracks
  | text => exact hint.bind fun x _ => safe_integerText x

theorem asks_wholeInt (x : Float) : Asks w (wholeInt x) Lives := by
  unfold wholeInt
  split
  · exact asks_fail _
  · split
    · exact asks_pure trivial
    · exact asks_fail _

theorem asks_roundTo (x : Float) (places : Int64) : Asks w (roundTo x places) Lives := by
  unfold roundTo
  dsimp only
  split
  · exact asks_wholeInt _
  · split <;> exact asks_pure trivial

theorem asks_round (x : Float) : Asks w (round x args) Lives := by
  unfold round
  split
  · exact asks_wholeInt _
  · exact asks_needInt.andThen fun places _ => asks_roundTo x places
  · exact asks_fail _

theorem safe_runFloat (m : FloatMethod) : Safe w (runFloat m call) (runFloat m call) := by
  refine asks_needFloat.bind fun x _ => ?_
  cases m with
  | truncate | ceiling | floor => exact (asks_wholeInt _).tracks
  | round => exact (asks_round x).tracks
  | isNaN | isFinite => exact tracks_pure trivial
  | infinitySign =>
    refine tracks_pure ?_
    unfold infinitySign
    split <;> trivial
  | text => exact safe_newText _

end Arithmetic

/-! ## Texts -/

namespace Texts

theorem asks_compare? (s : String) (ha : Lives w.heap args) : Asks w (compare? s args) Lives := by
  refine (asks_single ha).andThen fun v _ => ?_
  split
  · exact (asks_anything _).andThen
      fun _ _ => asks_pure fun _ _ => trivial
  · exact asks_pure lives_none

theorem asks_comparison (s : String) {test : Ordering → Bool} (ha : Lives w.heap args) :
    Asks w (comparison s args test) Lives := by
  refine (asks_compare? s ha).andThen fun o _ => ?_
  cases o <;> exact asks_pure trivial

theorem safe_times (s : String) (ha : Lives w.heap args) :
    Safe w (times s args) (times s args) := by
  refine (asks_intArgument ha).bind fun count _ => ?_
  refine tracks_refusal fun _ => ?_
  refine tracks_refusal fun _ => ?_
  exact (asks_checkSize _).bind fun _ _ => safe_newText _

theorem asks_anyText (test : List Char → Bool) : Asks w (anyText test args) Lives := by
  induction args with
  | nil => exact asks_pure trivial
  | cons v rest ih =>
    refine asks_needText.andThen fun s _ => ?_
    split
    · exact asks_pure trivial
    · exact ih

theorem safe_substring (cs : List Char) (place : Option (Nat × Nat)) :
    Safe w (substring cs place) (substring cs place) := by
  cases place with
  | some p => exact safe_newText _
  | none => exact tracks_pure trivial

theorem safe_part (cs : List Char) (v : Value) :
    Safe w (index.part cs v) (index.part cs v) := by
  refine (asks_anything _).bind fun o _ => ?_
  cases o with
  | some p => exact safe_substring cs _
  | none =>
    refine (asks_anything _).bind fun o _ => ?_
    cases o with
    | some needle =>
      dsimp only
      split
      · exact safe_newText _
      · exact tracks_pure trivial
    | none => exact tracks_fail _

theorem safe_index (cs : List Char) : Safe w (index cs args) (index cs args) := by
  unfold index
  split
  · split
    · exact safe_newText _
    · exact tracks_pure trivial
  · exact safe_substring cs _
  · exact safe_part cs _
  · exact tracks_fail _

theorem safe_append (hv : Lives w.heap receiver) (ha : Lives w.heap args) :
    Safe w (append receiver args) (append receiver args) := by
  refine (asks_needTextRef hv).bind fun r hr => ?_
  refine (asks_textArgument ha).bind fun s _ => ?_
  exact (tracks_modifyHeap fun _ => Heap.keeps_modifyText _ hr).bind
    fun _ _ e _ => tracks_pure (hv.later e)

theorem safe_newTextArray (texts : List (List Char)) :
    Safe w (newTextArray texts) (newTextArray texts) :=
  (safe_newTexts _).bind fun _ _ _ hvs => safe_newList hvs

theorem safe_split (cs : List Char) : Safe w (split cs args) (split cs args) := by
  unfold split
  split
  · exact safe_newTextArray _
  · exact (asks_anything _).bind fun _ _ => safe_newTextArray _
  · exact tracks_fail _
  · exact tracks_fail _

theorem safe_run (m : StringMethod) (hc : Lives w.heap call) :
    Safe w (run m call) (run m call) := by
  have htext := asks_needText (w := w) (v := call.receiver)
  have harg := asks_textArgument hc.2.1
  cases m with
  | itself => exact tracks_pure hc.1
  | append => exact safe_append hc.1 hc.2.1
  | add => exact htext.bind fun _ _ => harg.bind fun _ _ => safe_newText _
  | times => exact htext.bind fun s _ => safe_times s hc.2.1
  | compare =>
    exact htext.bind fun s _ => (asks_compare? s hc.2.1).bind
      fun _ _ => tracks_pure (Arithmetic.lives_orderValue _)
  | less | greater | atMost | atLeast =>
    exact htext.bind fun s _ => (asks_comparison s hc.2.1).tracks
  | upcase | downcase | capitalize | reverse | strip | inspect =>
    exact htext.bind fun _ _ => safe_newText _
  | length | toSymbol | toFloat | isEmpty => exact htext.bind fun _ _ => tracks_pure trivial
  | toInteger => exact htext.bind fun _ _ => (asks_exactly _).tracks
  | includes => exact htext.bind fun _ _ => harg.bind fun _ _ => tracks_pure trivial
  | startsWith | endsWith => exact htext.bind fun _ _ => (asks_anyText _).tracks
  | index => exact htext.bind fun _ _ => safe_index _
  | split => exact htext.bind fun _ _ => safe_split _
  | chars => exact htext.bind fun _ _ => safe_newTextArray _

theorem safe_runSymbol (m : SymbolMethod) (hc : Lives w.heap call) :
    Safe w (runSymbol m call) (runSymbol m call) := by
  have hname := asks_needSymbol (w := w) (v := call.receiver)
  cases m with
  | itself => exact tracks_pure hc.1
  | text | inspect => exact hname.bind fun _ _ => safe_newText _
  | toProc =>
    exact hname.bind fun _ _ => (safe_newNative _).bind fun _ _ _ hm => tracks_pure hm
  | length => exact hname.bind fun _ _ => tracks_pure trivial
  | compare =>
    refine hname.bind fun name _ => (asks_single hc.2.1).bind fun other _ => ?_
    split
    · exact tracks_pure (Arithmetic.lives_orderValue _)
    · exact tracks_pure trivial

end Texts

/-! ## Ranges and procs -/

namespace Ranges

theorem safe_foldItems {σ : Type} [Refers σ] {low high : Int64} {f g : σ → Int64 → Run σ}
    (hf : ∀ (w' : World) (acc : σ) (k : Int64), w.heap.Extends w'.heap → Lives w'.heap acc →
      Safe w' (f acc k) (g acc k)) {start : σ} (hs : Lives w.heap start) :
    Safe w (foldItems low high f start) (foldItems low high g start) :=
  tracks_foldInts hf _ _ hs

theorem safe_yieldInt (hij : i.Agrees j) {block : Callable} (hv : Lives w.heap receiver)
    (hb : Lives w.heap block) (k : Int64) :
    Safe w (i.yieldTo block receiver [.int k]) (j.yieldTo block receiver [.int k]) :=
  Interp.safe_yieldTo hij hb hv (lives_cons.2 ⟨lives_int k, lives_nil⟩)

theorem safe_each (hij : i.Agrees j) (hc : Lives w.heap call) :
    Safe w (each i call) (each j call) := by
  refine (asks_needBlock hc.2.2).bind fun block hb => ?_
  refine asks_needRange.bind fun bounds _ => ?_
  refine (safe_foldItems (fun w' _ k e _ => ?_) trivial).bind
    fun _ _ e _ => tracks_pure (hc.1.later e)
  exact (safe_yieldInt hij (hc.1.later e) (hb.later e) k).bind fun _ _ _ _ => tracks_pure trivial

theorem safe_map (hij : i.Agrees j) (hc : Lives w.heap call) :
    Safe w (map i call) (map j call) := by
  refine (asks_needBlock hc.2.2).bind fun block hb => ?_
  refine asks_needRange.bind fun bounds _ => ?_
  refine (safe_foldItems (fun w' acc k e hacc => ?_) lives_emptyArray).bind
    fun _ _ _ hitems => safe_newArray hitems
  exact (safe_yieldInt hij (hc.1.later e) (hb.later e) k).bind
    fun _ _ e' hv => tracks_pure (lives_push (hacc.later e') hv)

theorem safe_select (hij : i.Agrees j) (hc : Lives w.heap call) :
    Safe w (select i call) (select j call) := by
  refine (asks_needBlock hc.2.2).bind fun block hb => ?_
  refine asks_needRange.bind fun bounds _ => ?_
  refine (safe_foldItems (fun w' acc k e hacc => ?_) lives_emptyArray).bind
    fun _ _ _ hitems => safe_newArray hitems
  refine (safe_yieldInt hij (hc.1.later e) (hb.later e) k).bind fun answer _ e' _ => ?_
  split
  · exact tracks_pure (lives_push (hacc.later e') (lives_int k))
  · exact tracks_pure (hacc.later e')

theorem safe_newInts (low : Int64) (count : Nat) :
    Safe w (newInts low count) (newInts low count) :=
  safe_newList (lives_map fun k _ => lives_int k)

theorem safe_first (low high : Int64) : Safe w (first low high args) (first low high args) := by
  unfold first
  split
  · exact tracks_pure trivial
  · exact Lists.asks_needCount.bind fun _ _ => safe_newInts low _
  · exact tracks_fail _

theorem safe_last (low high : Int64) : Safe w (last low high args) (last low high args) := by
  unfold last
  split
  · exact tracks_pure trivial
  · exact Lists.asks_needCount.bind fun _ _ => safe_newInts _ _
  · exact tracks_fail _

theorem safe_sum (hij : i.Agrees j) (hc : Lives w.heap call) :
    Safe w (sum i call) (sum j call) := by
  refine asks_needRange.bind fun bounds _ => ?_
  exact safe_foldItems (fun w' acc k e hacc => Lists.safe_addItem hij (hc.1.later e)
    (hc.2.2.later e) hacc (lives_int k)) (lives_int 0)

theorem safe_run (hij : i.Agrees j) (m : RangeMethod) (hc : Lives w.heap call) :
    Safe w (run i m call) (run j m call) := by
  have hrange := asks_needRange (w := w) (v := call.receiver)
  cases m with
  | each => exact safe_each hij hc
  | map => exact safe_map hij hc
  | select => exact safe_select hij hc
  | sum => exact safe_sum hij hc
  | toArray => exact hrange.bind fun _ _ => safe_newInts _ _
  | first => exact hrange.bind fun _ _ => safe_first _ _
  | last => exact hrange.bind fun _ _ => safe_last _ _
  | size => exact hrange.bind fun _ _ => (asks_exactly _).tracks
  | includes =>
    exact hrange.bind fun _ _ => (asks_single hc.2.1).bind fun _ _ => tracks_pure trivial
  | text => exact hrange.bind fun _ _ => safe_newText _

theorem safe_runProc (hij : i.Agrees j) (m : ProcMethod) (hc : Lives w.heap call) :
    Safe w (runProc i m call) (runProc j m call) := by
  have hproc := asks_needProc hc.1
  cases m with
  | itself => exact tracks_pure hc.1
  | call =>
    exact hproc.bind fun c hp =>
      hij.invoke (Callable.IsProc.answers hp call.receiver) hc.1 hc.2.1 hc.2.2
  | arity =>
    refine hproc.bind fun c _ => ?_
    split <;> exact tracks_pure trivial

end Ranges

end Spinel
