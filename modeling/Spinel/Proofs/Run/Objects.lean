import Spinel.Method.Kernel
import Spinel.Method.Module
import Spinel.Proofs.Grammar.Spans
import Spinel.Proofs.Run.Arrays

/-!
# Methods of objects and classes on regular heaps

The methods that every value has, those of classes and modules, and the global functions. Objects
are made with what the nearest core class of their class decides (`Creation.safe_create`).
-/

namespace Spinel

open Run

variable [Secrecy] {i j : Interp} {w : World} {n : Nat} {args : List Value} {receiver v : Value}
  {call : Call}

/-! ## Methods of every value -/

namespace Universal

theorem safe_text (receiver : Value) : Safe w (text receiver) (text receiver) := by
  unfold text
  split
  · split
    · exact safe_newText _
    · exact (asks_anything _).bind fun _ _ => safe_newText _
  · exact (asks_readingSome (Q := fun _ _ => True) fun _ _ => trivial).bind
      fun _ _ => safe_newText _

theorem safe_variableTexts (hij : i.Agrees j) {slots : List (String × Value)}
    (hs : Lives w.heap slots) : Safe w (variableTexts i slots) (variableTexts j slots) := by
  induction slots generalizing w with
  | nil => exact tracks_pure lives_nil
  | cons p rest ih =>
    obtain ⟨hp, hrest⟩ := lives_cons.1 hs
    refine (Interp.safe_inspect hij hp.2).bind fun s w' e _ => ?_
    exact (ih (hrest.later e)).bind fun _ _ _ hmore => tracks_pure (lives_cons.2 ⟨trivial, hmore⟩)

theorem safe_inspect (hij : i.Agrees j) (receiver : Value) :
    Safe w (inspect i receiver) (inspect j receiver) := by
  unfold inspect
  split
  · next r =>
    refine (asks_reading (Q := Lives) fun hr => hr.lives_variables r).bind fun slots hs => ?_
    split
    · exact safe_text _
    · refine (asks_anything _).bind fun name _ => ?_
      refine Tracks.bind (Q := Lives) (Tracks.guardInspecting trivial fun w' hw' => ?_)
        fun s _ _ _ => safe_newText s
      have hslots : Lives w'.heap slots.entries := fun e he => ⟨trivial, hw' ▸ hs e he⟩
      exact (safe_variableTexts hij hslots).bind fun _ _ _ _ => tracks_pure trivial
  · exact safe_text _

theorem safe_respondsTo (ha : Lives w.heap args) :
    Safe w (respondsTo receiver args) (respondsTo receiver args) := by
  refine (asks_single ha).bind fun _ _ => asks_needName.bind fun name _ => ?_
  exact (asks_anything _).bind fun _ _ => tracks_pure trivial

theorem safe_send (hij : i.Agrees j) (hc : Lives w.heap call) :
    Safe w (send i call) (send j call) := by
  obtain ⟨receiver, args, block⟩ := call
  obtain ⟨hv, ha, hb⟩ := hc
  unfold send
  split
  · exact tracks_fail _
  · next name rest hargs =>
    refine asks_needName.bind fun name' _ => ?_
    have ha' : Lives w.heap (name :: rest) := hargs ▸ ha
    exact Interp.safe_send hij hv name' (lives_cons.1 ha').2 hb

theorem safe_variableGet (ha : Lives w.heap args) :
    Safe w (variableGet receiver args) (variableGet receiver args) := by
  refine (asks_single ha).bind fun _ _ => asks_needName.bind fun name _ => ?_
  exact (asks_reading fun hr => hr.lives_instanceVariable receiver name).tracks

theorem keeps_setInstanceVariable {h h' : Heap} {name : String} (hv : Lives h receiver)
    (hv' : Lives h v) (hs : h.setInstanceVariable receiver name v = some h') : h.Keeps h' := by
  unfold Heap.setInstanceVariable at hs
  split at hs
  · cases hs
    exact Heap.keeps_setObjectVariable hv'
  · cases hs
    exact Heap.keeps_setClassVariable hv'
  · cases hs

theorem safe_assign (hv : Lives w.heap receiver) (name : String) (hv' : Lives w.heap v) :
    Safe w (assign receiver name v) (assign receiver name v) := by
  refine (asks_reading (Q := fun h o => ∀ h', o = some h' → h.Keeps h')
    fun _ h' hs => keeps_setInstanceVariable hv hv' hs).bind fun o ho => ?_
  cases o with
  | some heap =>
    exact (tracks_modifyHeap fun _ => ho heap rfl).bind fun _ _ e _ => tracks_pure (hv'.later e)
  | none => exact tracks_fail _

theorem safe_variableSet (hv : Lives w.heap receiver) (ha : Lives w.heap args) :
    Safe w (variableSet receiver args) (variableSet receiver args) := by
  unfold variableSet
  split
  · have hvalue := (lives_cons.1 (lives_cons.1 ha).2).1
    exact asks_needName.bind fun name _ => safe_assign hv name hvalue
  · exact tracks_fail _

theorem lives_symbols {h : Heap} (names : List String) :
    Lives h (names.map Value.symbol) :=
  lives_map fun _ _ => trivial

theorem safe_variableNames (receiver : Value) :
    Safe w (variableNames receiver) (variableNames receiver) := by
  unfold variableNames
  split
  · exact (asks_anything _).bind
      fun names _ => safe_newList (lives_symbols names)
  · exact safe_newList lives_nil

theorem safe_run (hij : i.Agrees j) (m : ObjectMethod) (hc : Lives w.heap call) :
    Safe w (run i m call) (run j m call) := by
  have hsingle := asks_single hc.2.1
  cases m with
  | classOf =>
    exact (asks_reading (Q := fun h c => Lives h (.klass c : Value))
      fun hr => hr.lives_classOf call.receiver).bind fun _ hk => tracks_pure hk
  | inspect => exact safe_inspect hij _
  | text => exact safe_text _
  | hashCode => exact (asks_anything _).bind fun _ _ => tracks_pure trivial
  | equals | identical =>
    exact hsingle.bind fun _ _ => (asks_anything _).bind
      fun _ _ => tracks_pure trivial
  | differs =>
    exact (Interp.safe_send hij hc.1 "==" hc.2.1 lives_none).bind
      fun _ _ _ _ => tracks_pure trivial
  | negate | isNil => exact tracks_pure trivial
  | respondsTo => exact safe_respondsTo hc.2.1
  | send => exact safe_send hij hc
  | variableGet => exact safe_variableGet hc.2.1
  | variableSet => exact safe_variableSet hc.1 hc.2.1
  | variableNames => exact safe_variableNames _
  | isA | instanceOf =>
    exact hsingle.bind fun _ hv => (asks_needClass hv).bind fun _ _ =>
      (asks_anything _).bind fun _ _ => tracks_pure trivial

theorem safe_runNil (m : NilMethod) : Safe w (runNil m) (runNil m) := by
  cases m with
  | text | inspect => exact safe_newText _
  | list => exact safe_newList lives_nil

end Universal

/-! ## Classes and modules -/

namespace Reflection

variable {c : ClassRef}

theorem safe_setNative (name : String) (m : Native) {v : Value} (hv : Lives w.heap v) :
    Safe w
      (do
        let m ← newNative m
        modifyHeap (·.setMethod c name m)
        return v)
      (do
        let m ← newNative m
        modifyHeap (·.setMethod c name m)
        return v) := by
  refine (safe_newNative m).bind fun m w' e hm => ?_
  exact (tracks_modifyHeap fun _ => Heap.keeps_setMethod hm).bind
    fun _ _ e' _ => tracks_pure (hv.later (e.trans e'))

theorem safe_defineReader (c : ClassRef) (name : String) :
    Safe w (defineReader c name) (defineReader c name) :=
  safe_setNative _ _ trivial

theorem safe_defineWriter (c : ClassRef) (name : String) :
    Safe w (defineWriter c name) (defineWriter c name) :=
  safe_setNative _ _ trivial

theorem safe_defineReaders (c : ClassRef) (names : List String) :
    Safe w (defineReaders c names) (defineReaders c names) :=
  safe_forEach (fun _ name _ _ => safe_defineReader c name) (fun _ _ => rfl) (fun _ _ => rfl)
    rfl rfl fun _ _ => trivial

theorem safe_defineWriters (c : ClassRef) (names : List String) :
    Safe w (defineWriters c names) (defineWriters c names) :=
  safe_forEach (fun _ name _ _ => safe_defineWriter c name) (fun _ _ => rfl) (fun _ _ => rfl)
    rfl rfl fun _ _ => trivial

theorem safe_defineAccessors (c : ClassRef) (names : List String) :
    Safe w (defineAccessors c names) (defineAccessors c names) := by
  induction names generalizing w with
  | nil => exact tracks_pure lives_nil
  | cons name rest ih =>
    refine (safe_defineReader c name).bind fun r w' e hr => ?_
    refine (safe_defineWriter c name).bind fun v w'' e' hv => ?_
    exact ih.bind fun _ _ f hvs =>
      tracks_pure (lives_cons.2 ⟨hr.later (e'.trans f), lives_cons.2 ⟨hv.later f, hvs⟩⟩)

theorem safe_list (classes : Heap → List ClassRef) :
    Safe w (instanceMethods.list classes) (instanceMethods.list classes) :=
  (asks_anything _).bind
    fun names _ => safe_newList (Universal.lives_symbols names)

theorem safe_instanceMethods (c : ClassRef) :
    Safe w (instanceMethods c args) (instanceMethods c args) := by
  unfold instanceMethods
  split
  · exact safe_list _
  · exact safe_list _
  · exact tracks_fail _

theorem safe_methodDefined (c : ClassRef) (ha : Lives w.heap args) :
    Safe w (methodDefined c args) (methodDefined c args) := by
  refine (asks_single ha).bind fun _ _ => asks_needName.bind fun name _ => ?_
  exact (asks_anything _).bind fun _ _ => tracks_pure trivial

theorem asks_constantOf (hv : Lives w.heap v) (name : String) :
    Asks w (constantOf v name) Lives := by
  refine (asks_needClass hv).andThen fun c _ => ?_
  exact (asks_reading (Q := Lives) fun hr => hr.lives_findConstant c name).andThen
    fun _ ho => asks_ofOption ho

theorem asks_followPath (hv : Lives w.heap v) (path : List String) :
    Asks w (followPath v path) Lives := by
  induction path generalizing v with
  | nil => exact asks_pure hv
  | cons name rest ih => exact (asks_constantOf hv name).andThen fun _ hv' => ih hv'

theorem safe_run (m : ModuleMethod) (hc : Lives w.heap call) :
    Safe w (run m call) (run m call) := by
  refine (asks_needClass hc.1).bind fun c hk => ?_
  cases m with
  | name => exact (asks_anything _).bind fun _ _ => safe_newText _
  | caseEquals =>
    exact (asks_single hc.2.1).bind fun _ _ => (asks_anything _).bind
      fun _ _ => tracks_pure trivial
  | accessor =>
    exact asks_needNames.bind fun names _ => (safe_defineAccessors c names).bind
      fun _ _ _ hvs => safe_newList hvs
  | reader =>
    exact asks_needNames.bind fun names _ => (safe_defineReaders c names).bind
      fun _ _ _ hvs => safe_newList hvs
  | writer =>
    exact asks_needNames.bind fun names _ => (safe_defineWriters c names).bind
      fun _ _ _ hvs => safe_newList hvs
  | instanceMethods => exact safe_instanceMethods c
  | methodDefined => exact safe_methodDefined c hc.2.1
  | constantGet =>
    exact (asks_single hc.2.1).bind fun _ _ => asks_needName.bind
      fun path _ => (asks_followPath hk _).tracks
  | ancestors =>
    exact (asks_reading (Q := fun h ks => Lives h (ks.map Value.klass))
      fun hr => hr.lives_lineage hk).bind fun ks hks => safe_newList hks

end Reflection

/-! ## Making instances -/

namespace Creation

variable {c : ClassRef} {l : Layout}

/-- A value that stands behind instances with a layout. -/
def Made (l : Layout) (h : Heap) (v : Value) : Prop :=
  Lives h v ∧ Backs l.decision (some v)

theorem safe_itemsFrom (hij : i.Agrees j) {block : Callable} (hv : Lives w.heap receiver)
    (hb : Lives w.heap block) (count : Nat) (k : Int) :
    Safe w (itemsFrom i receiver block count k) (itemsFrom j receiver block count k) := by
  induction count generalizing w k with
  | zero => exact tracks_pure lives_nil
  | succ count ih =>
    refine (Interp.safe_yieldTo hij hb hv (lives_cons.2 ⟨lives_int _, lives_nil⟩)).bind
      fun v w' e hv' => ?_
    exact (ih (hv.later e) (hb.later e) (k + 1)).bind fun _ _ e' hvs =>
      tracks_pure (lives_cons.2 ⟨hv'.later e', hvs⟩)

theorem made_newArray {items : Array Value} (hi : Lives w.heap items) :
    Tracks w (Run.newArray items) (Run.newArray items) (Made .array) :=
  (tracks_newArray hi).mono fun _ _ ⟨r, hv, hr⟩ => hv ▸ ⟨hr, .array r⟩

theorem made_filledArray (hij : i.Agrees j) (hc : Lives w.heap call) (size : Int64) {fill : Value}
    (hf : Lives w.heap fill) :
    Tracks w (filledArray i call size fill) (filledArray j call size fill) (Made .array) := by
  unfold filledArray
  refine tracks_refusal fun _ => ?_
  refine (asks_checkSize _).bind fun _ _ => ?_
  split
  · next block hblock =>
    have hb : Lives w.heap block := lives_some.1 (hblock ▸ hc.2.2)
    exact (safe_itemsFrom hij hc.1 hb _ 0).bind fun _ _ _ hvs => made_newArray (lives_toArray.2 hvs)
  · exact made_newArray (lives_replicate _ hf)

theorem made_newArrayOf (hij : i.Agrees j) (hc : Lives w.heap call) :
    Tracks w (newArray i call) (newArray j call) (Made .array) := by
  obtain ⟨receiver, args, block⟩ := call
  have ha := hc.2.1
  unfold newArray
  dsimp only at ha ⊢
  split
  · exact made_newArray lives_emptyArray
  · exact made_filledArray hij hc _ trivial
  · exact made_filledArray hij hc _ (lives_cons.1 (lives_cons.1 ha).2).1
  · next v _ =>
    refine Asks.bind (Q := Lives) ?_ fun _ hi => made_newArray hi
    refine (asks_reading (Q := Lives) fun hr => hr.lives_listRef? (lives_cons.1 ha).1).andThen
      fun o _ => ?_
    cases o with
    | some r => exact asks_items r
    | none => exact asks_fail _
  · exact tracks_fail _
  · exact tracks_fail _

theorem made_newText (s : String) : Tracks w (newText s) (newText s) (Made .string) :=
  (tracks_newText s).mono fun _ _ ⟨r, hv, hr⟩ => hv ▸ ⟨hr, .string r⟩

theorem made_newString : Tracks w (newString args) (newString args) (Made .string) := by
  unfold newString
  split
  · exact made_newText _
  · exact (asks_anything _).bind fun _ _ => made_newText _
  · exact tracks_fail _
  · exact tracks_fail _

theorem made_newHash : Tracks w (newHash args) (newHash args) (Made .hash) := by
  unfold newHash
  split
  · exact (tracks_newHash fun _ hp => by cases hp).mono fun _ _ ⟨r, hv, hr⟩ => hv ▸ ⟨hr, .hash r⟩
  · exact tracks_fail _

theorem made_rangeBetween (low high : Value) (exclusive : Bool) :
    Tracks w (rangeBetween low high exclusive) (rangeBetween low high exclusive) (Made .range) := by
  unfold rangeBetween
  split
  · exact tracks_pure ⟨trivial, .range _ _⟩
  · exact tracks_fail _
  · exact tracks_fail _

theorem made_newRange : Tracks w (newRange args) (newRange args) (Made .range) := by
  unfold newRange
  split
  · exact made_rangeBetween _ _ _
  · exact made_rangeBetween _ _ _
  · exact tracks_fail _

theorem safe_wrapped (hc : Lives w.heap (.klass c : Value)) (hv : Made l w.heap v)
    (hd : (w.heap.ancestors c).findSome? decides = l.decision) :
    Safe w (wrapped c v) (wrapped c v) := by
  refine (asks_anything _).bind fun k _ => ?_
  split
  · exact tracks_pure hv.1
  · refine (tracks_alloc (Q := Lives) (fun _ => ?_) fun _ => Heap.lives_newObject _).bind
      fun _ _ _ hr => tracks_pure hr
    exact Heap.keeps_newInstance hc (hd ▸ hv.2) (lives_some.2 hv.1)

theorem safe_newObject (hij : i.Agrees j) (hk : Lives w.heap (.klass c : Value))
    (hd : (w.heap.ancestors c).findSome? decides = none) (hc : Lives w.heap call) :
    Safe w (newObject i c call) (newObject j c call) := by
  refine (tracks_alloc (Q := Lives) (fun _ => Heap.keeps_newInstance hk (hd ▸ .nothing)
    lives_none) fun _ => Heap.lives_newObject _).bind fun r w' e hr => ?_
  have hobject : Lives w'.heap (.object r : Value) := hr
  refine (Interp.asks_methodOf (.object r) "initialize").bind fun o ho => ?_
  cases o with
  | some m =>
    exact (hij.invoke (ho m rfl) hobject (hc.2.1.later e) (hc.2.2.later e)).bind
      fun _ _ e' _ => tracks_pure (hobject.later e')
  | none =>
    dsimp only
    split
    · exact tracks_pure hobject
    · exact tracks_fail _

/-- The decision about the instances of a class stands, whatever is made in between. -/
theorem safe_create (hij : i.Agrees j) (hk : Lives w.heap (.klass c : Value))
    (hc : Lives w.heap call) : Safe w (create i c call) (create j c call) := by
  refine tracks_of_regular fun hr => ?_
  refine (asks_reading (Q := fun h o => ∀ l, o = some l →
    (h.ancestors c).findSome? decides = l.decision) fun _ _ hl => decision_of_layout? hl).bind
      fun o ho => ?_
  have hlater : ∀ (l : Layout) (w' : World) (v : Value), o = some l →
      w.heap.Extends w'.heap → Made l w'.heap v → Safe w' (wrapped c v) (wrapped c v) := by
    intro l w' v hl e hv
    refine tracks_of_regular fun hr' => safe_wrapped (hk.later e) hv ?_
    rw [e.enlarges.ancestors hr.ordered hr'.ordered hk.1]
    exact ho l hl
  cases o with
  | none => exact (Interp.asks_noMethod _ _).tracks
  | some l =>
    cases l with
    | object => exact safe_newObject hij hk (ho _ rfl) hc
    | array => exact (made_newArrayOf hij hc).bind fun v w' e hv => hlater _ w' v rfl e hv
    | string => exact made_newString.bind fun v w' e hv => hlater _ w' v rfl e hv
    | hash => exact made_newHash.bind fun v w' e hv => hlater _ w' v rfl e hv
    | range => exact made_newRange.bind fun v w' e hv => hlater _ w' v rfl e hv
    | proc =>
      exact (asks_needBlock hc.2.2).bind fun block hb =>
        hlater _ w _ rfl (.refl _) ⟨hb, .proc block⟩

theorem safe_run (hij : i.Agrees j) (m : ClassMethod) (hc : Lives w.heap call) :
    Safe w (run i m call) (run j m call) := by
  refine (asks_needClass hc.1).bind fun c hk => ?_
  cases m with
  | create => exact safe_create hij hk hc
  | superclass =>
    exact (asks_reading (Q := fun h o => Lives h (o.map Value.klass))
      fun hr => hr.lives_superclass hk).bind fun _ ho => tracks_pure (lives_ofOption ho)

end Creation

/-! ## Loading -/

namespace Interp

theorem safe_newSource (label : String) : Safe w (Run.newSource label) (Run.newSource label) :=
  fun _ => ⟨rfl, .refl _, trivial⟩

theorem safe_runStream (hij : i.Agrees j) (s : Stream) (label : String) :
    Safe w (i.runStream s label) (j.runStream s label) := by
  refine (safe_newSource label).bind fun source w' _ _ => ?_
  split
  · next nodes _ hparse =>
    refine tracks_of_regular fun hr => ?_
    have hnil : Lives w'.heap Value.nil := trivial
    have hnodes : Lives w'.heap nodes := fun node hnode _ =>
      Grammar.sound_of_parse hparse node hnode
    exact (safe_body hij hr.lives_root hnil hnodes).mapFailure _
  · exact (asks_throw _).tracks
  · exact tracks_outOfFuel

theorem safe_runText (hij : i.Agrees j) (code label : String) :
    Safe w (i.runText code label) (j.runText code label) :=
  safe_runStream hij _ label

theorem safe_resolve (path : String) : Safe w (Run.resolve path) (Run.resolve path) := by
  rcases Run.resolve_cases path w with ⟨code, -, hw⟩ | ⟨f, -, hw⟩
  · exact tracks_of_ok hw hw (.refl _) trivial
  · exact tracks_of_error hw hw (.refl _)

theorem safe_require (hij : i.Agrees j) (path : String) :
    Safe w (i.require path) (j.require path) := by
  refine asks_get.bind fun u _ => ?_
  split
  · exact tracks_pure trivial
  · refine (safe_resolve path).bind fun code w _ _ => ?_
    have hloaded : Safe w (modify fun w => { w with loaded := path :: w.loaded } : Run Unit)
        (modify fun w => { w with loaded := path :: w.loaded }) := fun _ => ⟨rfl, .refl _, trivial⟩
    refine hloaded.bind fun _ w' _ _ => ?_
    exact (safe_runText hij code path).bind fun _ _ _ _ => tracks_pure trivial

/-! ## Global functions -/

theorem safe_all {f g : Value → Run (List String)} {vs : List Value}
    (hf : ∀ (w' : World) (v : Value), w.heap.Extends w'.heap → Lives w'.heap v →
      Safe w' (f v) (g v)) (hvs : Lives w.heap vs) : Safe w (lines.all f vs) (lines.all g vs) := by
  have hloop : ∀ (vs : List Value) (w' : World), w.heap.Extends w'.heap → Lives w'.heap vs →
      Safe w' (lines.all f vs) (lines.all g vs) := by
    intro vs
    induction vs with
    | nil => exact fun w' _ _ => tracks_pure lives_nil
    | cons v rest ih =>
      intro w' e hvs
      obtain ⟨hv, hrest⟩ := lives_cons.1 hvs
      refine (hf w' v e hv).bind fun ls w'' e' hls => ?_
      exact (ih w'' (e.trans e') (hrest.later e')).bind fun _ _ e'' hmore =>
        tracks_pure (lives_append.2 ⟨hls.later e'', hmore⟩)
  exact hloop vs w (.refl _) hvs

theorem safe_lines (hij : i.Agrees j) (n : Nat) (hv : Lives w.heap v) :
    Safe w (i.lines n v) (j.lines n v) := by
  induction n generalizing w v with
  | zero =>
    unfold lines
    split
    · exact tracks_pure fun _ _ => trivial
    · exact tracks_outOfFuel
    · exact (safe_text hij hv).bind fun _ _ _ _ => tracks_pure fun _ _ => trivial
  | succ n ih =>
    unfold lines
    split
    · exact tracks_pure fun _ _ => trivial
    · next r =>
      refine (asks_items r).bind fun items hi => ?_
      refine Tracks.guardInspecting (fun _ _ => trivial) fun w' hw' => ?_
      exact safe_all (fun _ _ _ hv => ih hv) (hw' ▸ lives_toList.2 hi)
    · exact (safe_text hij hv).bind fun _ _ _ _ => tracks_pure fun _ _ => trivial

end Interp

namespace Kernel

theorem safe_argumentLines (hij : i.Agrees j) (n : Nat) (hv : Lives w.heap v) :
    Safe w (argumentLines i n v) (argumentLines j n v) := by
  unfold argumentLines
  split
  · refine (asks_items _).bind fun items _ => ?_
    split
    · exact tracks_pure fun _ _ => trivial
    · exact Interp.safe_lines hij n hv
  · exact Interp.safe_lines hij n hv

theorem safe_puts (hij : i.Agrees j) (ha : Lives w.heap args) :
    Safe w (puts i n args) (puts j n args) := by
  refine (Interp.safe_all (fun _ _ _ hv => safe_argumentLines hij n hv) ha).bind fun _ _ _ _ => ?_
  exact (safe_write _).bind fun _ _ _ _ => tracks_pure trivial

theorem safe_printed (hij : i.Agrees j) (ha : Lives w.heap args) :
    Safe w (printed i args) (printed j args) := by
  induction args generalizing w with
  | nil => exact tracks_pure trivial
  | cons v rest ih =>
    obtain ⟨hv, hrest⟩ := lives_cons.1 ha
    have hmore : Safe w
        (do
          let s ← i.text v
          let more ← printed i rest
          pure (s ++ more))
        (do
          let s ← j.text v
          let more ← printed j rest
          pure (s ++ more)) :=
      (Interp.safe_text hij hv).bind fun s w' e _ =>
        (ih (hrest.later e)).bind fun _ _ _ _ => tracks_pure trivial
    cases v with
    | nil => exact ih hrest
    | bool | int | float | symbol | str | array | hash | range | klass | object | proc =>
      exact hmore

theorem safe_print (hij : i.Agrees j) (ha : Lives w.heap args) :
    Safe w (print i args) (print j args) :=
  (safe_printed hij ha).bind fun _ _ _ _ => (safe_write _).bind
    fun _ _ _ _ => tracks_pure trivial

theorem safe_display (hij : i.Agrees j) (ha : Lives w.heap args) :
    Safe w (display i args) (display j args) := by
  refine (Interp.safe_inspectAll hij ha).bind fun lines w' e _ => ?_
  refine (safe_write _).bind fun _ w'' e' _ => ?_
  have ha' := ha.later (e.trans e')
  split
  · exact tracks_pure trivial
  · exact tracks_pure (lives_cons.1 ha').1
  · exact safe_newList ha'

theorem safe_random : Safe w (random args) (random args) := by
  unfold random
  split
  · exact safe_randomFloat.bind fun _ _ _ _ => tracks_pure trivial
  · split
    · exact safe_randomFloat.bind fun _ _ _ _ => tracks_pure trivial
    · exact (safe_randomBelow _).bind fun _ _ _ _ => tracks_pure trivial
  · exact safe_randomFloat.bind fun _ _ _ _ => tracks_pure trivial
  · refine (asks_anything _).bind fun o _ => ?_
    split
    · dsimp only
      split
      · exact tracks_pure trivial
      · exact (safe_randomBelow _).bind fun _ _ _ _ => tracks_pure trivial
    · exact tracks_fail _
  · exact tracks_fail _

theorem safe_makeProc {block : Option Callable} (hb : Lives w.heap block) :
    Safe w (makeProc args block) (makeProc args block) := by
  unfold makeProc
  split
  · exact (asks_needBlock hb).bind fun _ hb => tracks_pure hb
  · exact tracks_fail _

theorem safe_run (hij : i.Agrees j) (m : KernelMethod) (hc : Lives w.heap call) :
    Safe w (run i n m call) (run j n m call) := by
  cases m with
  | puts => exact safe_puts hij hc.2.1
  | print => exact safe_print hij hc.2.1
  | «show» => exact safe_display hij hc.2.1
  | random => exact safe_random
  | require =>
    exact (asks_textArgument hc.2.1).bind fun path _ => (Interp.safe_require hij path).bind
      fun _ _ _ _ => tracks_pure trivial
  | makeProc => exact safe_makeProc hc.2.2

end Kernel

end Spinel
