import Spinel.Proofs.Run.Primitives

/-!
# Calls on regular heaps

Two evaluators agree (`Interp.Agrees`) if on regular heaps they do the same for tasks whose parts
are on the heap, and keep the heap regular. A callable that is looked up for a receiver makes such a
task (`Heap.Answers`), so sending messages and all that is built from it is the same with both.

Where the keys of tables are kept from programs, evaluators have to refuse the tasks that would hand
them out (`Task.Exposes`), and may still make the text of a key.
-/

namespace Spinel

/-! ## Tasks -/

/-- The methods of hashes that hand out keys. -/
def HashMethod.handsOutKeys : HashMethod → Bool
  | .keys | .each | .map | .toArray => true
  | _ => false

/-- By this task a program would get hold of a key of one of some tables. It calls a method that
hands out the keys, or another method than the built-in `inspect` on a key itself. -/
def Task.Exposes (tables : TableRef → Prop) (h : Heap) : Task → Prop
  | .eval .. => False
  | .invoke c receiver _ _ =>
    (∃ m r, c = .builtin (.hash m) ∧ m.handsOutKeys = true ∧ h.tableRef? receiver = some r ∧
      tables r) ∨
    ∃ k, receiver = .str k ∧ h.IsKeyOf tables k ∧ c ≠ .builtin (.string .inspect)

variable [S : Secrecy]

/-- The parts of a task are on the heap, and a built-in method is called on a value that has it. -/
def Task.Ready (h : Heap) : Task → Prop
  | .eval s node => Lives h s ∧ Lives h node
  | .invoke c receiver args block =>
    h.Answers receiver c ∧ Lives h receiver ∧ Lives h args ∧ Lives h block

/-- The tasks that an evaluator is given. Besides those that are ready, it may be asked for the text
of a key, and for tasks that expose keys, which it can refuse. -/
inductive Task.Allowed (h : Heap) : Task → Prop
  | ready {task : Task} (ht : task.Ready h) : Allowed h task
  | look {k : TextRef} {args : List Value} {block : Option Callable} (hk : h.Shows (.str k))
    (ha : Lives h args) (hb : Lives h block) :
    Allowed h (.invoke (.builtin (.string .inspect)) (.str k) args block)
  | exposing {task : Task} (ht : task.Exposes S.discreet h) : Allowed h task

/-- Two evaluators do the same, and only what programs can do, whatever else is reserved. -/
def Interp.Agrees (i j : Interp) : Prop :=
  ∀ T : Secrecy, T.toPolicy = S.toPolicy → ∀ (w : World) (task : Task),
    @Task.Allowed T w.heap task → @Run.Safe T _ _ w (i task) (j task)

variable {w : World} {v receiver : Value} {args : List Value} {block : Option Callable}

theorem Callable.IsProc.answers {h : Heap} {c : Callable} (hc : Lives h c) (v : Value) :
    h.Answers v c := by
  refine ⟨hc.1, ?_⟩
  rintro b rfl
  cases hc.2

namespace Interp

variable {i j : Interp}

open Run

theorem Agrees.eval (hij : Agrees i j) {s : ScopeRef} (hs : Lives w.heap s) {node : Node}
    (hn : Lives w.heap node) : Safe w (i (.eval s node)) (j (.eval s node)) :=
  hij S rfl w (.eval s node) (.ready ⟨hs, hn⟩)

theorem Agrees.invoke (hij : Agrees i j) {c : Callable} (hc : w.heap.Answers receiver c)
    (hv : Lives w.heap receiver) (ha : Lives w.heap args) (hb : Lives w.heap block) :
    Safe w (i (.invoke c receiver args block)) (j (.invoke c receiver args block)) :=
  hij S rfl w (.invoke c receiver args block) (.ready ⟨hc, hv, ha, hb⟩)

theorem safe_yieldTo (hij : Agrees i j) {c : Callable} (hc : Lives w.heap c)
    (hv : Lives w.heap receiver) (ha : Lives w.heap args) :
    Safe w (i.yieldTo c receiver args) (j.yieldTo c receiver args) :=
  hij.invoke (Callable.IsProc.answers hc receiver) hv ha lives_none

/-! ## Messages -/

theorem asks_methodOf (v : Value) (name : String) :
    Asks w (reading (·.methodOf v name)) fun h o => ∀ m, o = some m → h.Answers v m :=
  asks_reading fun hr _ hm => hr.answers_of_methodOf hm

theorem asks_missingMethod (v : Value) :
    Asks w (reading (missingMethod · v)) fun h o => ∀ m, o = some m → h.Answers v m := by
  refine asks_reading fun hr m hm => ?_
  unfold missingMethod at hm
  split at hm
  · cases hm
  · exact hr.answers_of_methodOf hm

theorem asks_noMethod {α : Type} {Q : Heap → α → Prop} (v : Value) (name : String) :
    Asks w (noMethod v name) Q :=
  (asks_anything _).andThen fun _ _ => asks_fail _

theorem safe_send (hij : Agrees i j) (hv : Lives w.heap receiver) (name : String)
    (ha : Lives w.heap args) (hb : Lives w.heap block) :
    Safe w (i.send receiver name args block) (j.send receiver name args block) := by
  refine (asks_methodOf receiver name).bind fun o ho => ?_
  cases o with
  | some c => exact hij.invoke (ho c rfl) hv ha hb
  | none =>
    refine (asks_missingMethod receiver).bind fun o ho => ?_
    cases o with
    | some c => exact hij.invoke (ho c rfl) hv (lives_cons.2 ⟨trivial, ha⟩) hb
    | none => exact (asks_noMethod receiver name).tracks

theorem safe_sendImplicit (hij : Agrees i j) (s : ScopeRef) (name : String)
    (ha : Lives w.heap args) (hb : Lives w.heap block) :
    Safe w (i.sendImplicit s name args block) (j.sendImplicit s name args block) := by
  refine (asks_reading (Q := Lives) fun hr => hr.lives_receiver s).bind fun receiver hv => ?_
  refine (asks_methodOf receiver name).bind fun o ho => ?_
  cases o with
  | some c =>
    exact (hij.invoke (ho c rfl) hv ha hb).bind fun _ _ _ hv => tracks_pure (lives_some.2 hv)
  | none =>
    refine (asks_methodOf (.object Core.main) name).bind fun o ho => ?_
    cases o with
    | some c =>
      refine tracks_of_regular fun hr => ?_
      exact (hij.invoke (ho c rfl) hr.lives_main ha hb).bind
        fun _ _ _ hv => tracks_pure (lives_some.2 hv)
    | none => exact tracks_pure lives_none

/-! ## Texts and comparisons -/

theorem asks_textOr (v answer : Value) : Asks w (textOr v answer) Lives := by
  unfold textOr
  split
  · exact asks_reading fun _ => trivial
  · exact asks_readingSome fun _ _ => trivial

theorem safe_text (hij : Agrees i j) (hv : Lives w.heap v) : Safe w (i.text v) (j.text v) := by
  unfold text
  split
  · exact (asks_reading fun _ => trivial).tracks
  · exact (safe_send hij hv "to_s" lives_nil lives_none).bind
      fun answer _ _ _ => (asks_textOr v answer).tracks

theorem safe_inspect (hij : Agrees i j) (hv : Lives w.heap v) :
    Safe w (i.inspect v) (j.inspect v) :=
  (safe_send hij hv "inspect" lives_nil lives_none).bind
    fun answer _ _ _ => (asks_textOr v answer).tracks

/-- Calling a method on a key of a table that keeps its keys to itself. -/
theorem Agrees.invokeKey (hij : Agrees i j) {k : TextRef} (hk : w.heap.Shows (.str k))
    (hkept : w.heap.IsKeyOf S.discreet k) (c : Callable) (ha : Lives w.heap args)
    (hb : Lives w.heap block) :
    Safe w (i (.invoke c (.str k) args block)) (j (.invoke c (.str k) args block)) := by
  by_cases hc : c = .builtin (.string .inspect)
  · exact hc ▸ hij S rfl w _ (.look hk ha hb)
  · exact hij S rfl w _ (.exposing (.inr ⟨k, rfl, hkept, hc⟩))

/-- The text of a key can be made whether or not programs can get hold of the key. -/
theorem safe_inspectKey (hij : Agrees i j) (hv : w.heap.Shows v) :
    Safe w (i.inspect v) (j.inspect v) := by
  cases v with
  | str k =>
    by_cases hkept : w.heap.IsKeyOf S.discreet k
    · have hsend : Safe w (i.send (.str k) "inspect" [] none)
          (j.send (.str k) "inspect" [] none) := by
        refine (asks_methodOf (.str k) "inspect").bind fun o _ => ?_
        cases o with
        | some c => exact hij.invokeKey hv hkept c lives_nil lives_none
        | none =>
          refine (asks_missingMethod (.str k)).bind fun o _ => ?_
          cases o with
          | some c => exact hij.invokeKey hv hkept c (lives_cons.2 ⟨trivial, lives_nil⟩) lives_none
          | none => exact (asks_noMethod _ _).tracks
      exact hsend.bind fun answer _ _ _ => (asks_textOr (.str k) answer).tracks
    · have hlives : Lives w.heap (.str k : Value) := ⟨hv.1, fun hhid => hhid.elim hv.2 hkept⟩
      exact safe_inspect hij hlives
  | nil | bool | int | float | symbol | array | hash | range | klass | object | proc =>
    exact safe_inspect hij hv

theorem safe_inspectAll (hij : Agrees i j) {vs : List Value} (hvs : Lives w.heap vs) :
    Safe w (i.inspectAll vs) (j.inspectAll vs) :=
  safe_forEach (fun _ _ _ hv => safe_inspect hij hv) (fun _ _ => rfl) (fun _ _ => rfl) rfl rfl hvs

theorem safe_equals (hij : Agrees i j) {u : Value} (hv : Lives w.heap v) (hu : Lives w.heap u) :
    Safe w (i.equals v u) (j.equals v u) :=
  (safe_send hij hv "==" (lives_cons.2 ⟨hu, lives_nil⟩) lives_none).bind
    fun _ _ _ _ => tracks_pure trivial

theorem safe_order (hij : Agrees i j) {u : Value} (hv : Lives w.heap v) (hu : Lives w.heap u) :
    Safe w (i.order v u) (j.order v u) := by
  refine (safe_send hij hv "<=>" (lives_cons.2 ⟨hu, lives_nil⟩) lives_none).bind
    fun answer _ _ _ => ?_
  split
  · exact tracks_pure trivial
  · exact tracks_fail _

/-! ## Statements -/

theorem safe_body (hij : Agrees i j) {s : ScopeRef} (hs : Lives w.heap s) {last : Value}
    (hl : Lives w.heap last) {nodes : List Node} (hn : Lives w.heap nodes) :
    Safe w (i.body s last nodes) (j.body s last nodes) := by
  induction nodes generalizing w last with
  | nil => exact tracks_pure hl
  | cons node rest ih =>
    obtain ⟨hnode, hrest⟩ := lives_cons.1 hn
    exact (hij.eval hs hnode).bind fun v w' e hv => ih (hs.later e) hv (hrest.later e)

end Interp

end Spinel
