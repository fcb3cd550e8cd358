import Spinel.Evaluation
import Spinel.Proofs.Run.Objects
import Spinel.Proofs.Run.Values

/-!
# Evaluation on regular heaps

Evaluating a node and calling a callable keep a regular heap regular and give values that live, if
the evaluator that they go back to does (`safe_step`). Two evaluators that agree are still in
agreement one level further up.
-/

namespace Spinel

open Run

variable [S : Secrecy] {i j : Interp} {w : World} {n : Nat} {args : List Value}
  {receiver v : Value} {call : Call} {scope : ScopeRef}

/-! ## Assignment -/

namespace Interp

theorem safe_evalAll (hij : i.Agrees j) (hs : Lives w.heap scope) {nodes : List Node}
    (hn : Lives w.heap nodes) : Safe w (i.evalAll scope nodes) (j.evalAll scope nodes) :=
  safe_forEach (fun _ _ e hn => hij.eval (hs.later e) hn) (fun _ _ => rfl) (fun _ _ => rfl)
    rfl rfl hn

theorem asks_receiver (scope : ScopeRef) :
    Asks w (reading fun h => (h.scope scope).receiver) Lives :=
  asks_reading fun hr => hr.lives_receiver scope

theorem safe_sendIgnored (hij : i.Agrees j) (hv : Lives w.heap receiver) (name : String)
    (ha : Lives w.heap args) (span : Span) :
    Safe w
      (do let _ ← (i.send receiver name args none).tagged span .calling)
      (do let _ ← (j.send receiver name args none).tagged span .calling) :=
  ((safe_send hij hv name ha lives_none).tagged span .calling).bind
    fun _ _ _ _ => tracks_pure trivial

theorem safe_store (hij : i.Agrees j) (hs : Lives w.heap scope) {target : Node}
    (hn : Lives w.heap target) (hv : Lives w.heap v) :
    Safe w (i.store scope target v) (j.store scope target v) := by
  have hparts := lives_children hn
  unfold store
  split
  · next name _ =>
    exact tracks_modifyHeap fun _ => Heap.keeps_defineLocal hv
  · next name _ =>
    exact tracks_modifyHeap fun _ => Heap.keeps_defineLocal hv
  · next name _ =>
    refine (asks_receiver scope).bind fun receiver hreceiver => ?_
    exact ((Universal.safe_assign hreceiver name hv).tagged _ _).bind
      fun _ _ _ _ => tracks_pure trivial
  · next name _ =>
    exact tracks_modifyHeap fun _ => Heap.keeps_setClassVariable hv
  · next name _ =>
    refine tracks_modifyHeap fun hr => ?_
    split
    · exact Heap.keeps_setConstant hv
    · exact Heap.keeps_defineLocal hv
  · next outer name hform =>
    rw [hform] at hparts
    refine (hij.eval hs (lives_cons.1 hparts).1).bind fun u w' e hu => ?_
    refine ((asks_needClass hu).tracks.tagged _ _).bind fun c w'' e' hc => ?_
    exact tracks_modifyHeap fun _ => Heap.keeps_setConstant (hv.later (e.trans e'))
  · next receiver args hform =>
    rw [hform] at hparts
    obtain ⟨hreceiver, hargs⟩ := lives_cons.1 hparts
    refine (hij.eval hs hreceiver).bind fun u w' e hu => ?_
    refine (safe_evalAll hij (hs.later e) (hargs.later e)).bind fun vs w'' e' hvs => ?_
    refine safe_sendIgnored hij (hu.later e') "[]=" (lives_append.2 ⟨hvs, ?_⟩) _
    exact lives_cons.2 ⟨hv.later (e.trans e'), lives_nil⟩
  · next receiver name hform =>
    rw [hform] at hparts
    refine (hij.eval hs (lives_cons.1 hparts).1).bind fun u w' e hu => ?_
    exact safe_sendIgnored hij hu _ (lives_cons.2 ⟨hv.later e, lives_nil⟩) _
  · exact (tracks_fail _).tagged _ _

theorem safe_assign (hij : i.Agrees j) (hs : Lives w.heap scope) {target value : Node}
    (htarget : Lives w.heap target) (hvalue : Lives w.heap value) :
    Safe w (i.assign scope target value) (j.assign scope target value) := by
  refine (hij.eval hs hvalue).bind fun v w' e hv => ?_
  exact (safe_store hij (hs.later e) (htarget.later e) hv).bind
    fun _ _ e' _ => tracks_pure (hv.later e')

/-! ## Definitions -/

theorem tracks_definee (hij : i.Agrees j) (hs : Lives w.heap scope) (span : Span)
    {target : Option Node} (hn : Lives w.heap target) :
    Tracks w (i.definee scope span target) (j.definee scope span target) fun _ _ => True := by
  unfold definee
  split
  · exact (asks_anything _).bind fun _ _ => tracks_pure trivial
  · next target =>
    refine (hij.eval hs (lives_some.1 hn)).bind fun u w' e hu => ?_
    split
    · exact tracks_alloc (fun _ => Heap.keeps_classSingleton) fun _ => trivial
    · exact tracks_alloc (fun _ => Heap.keeps_objectSingleton hu) fun _ => trivial
    · exact (tracks_fail _).tagged _ _

theorem safe_define (hij : i.Agrees j) (hs : Lives w.heap scope) (span : Span)
    {target : Option Node} (hn : Lives w.heap target) {m : Method} (hbody : Lives w.heap m.body) :
    Safe w (i.define scope span target m) (j.define scope span target m) := by
  refine (tracks_definee hij hs span hn).bind fun c w' e _ => ?_
  have hm : Lives w'.heap (.method m scope : Callable) := ⟨⟨hs.later e, hbody.later e⟩, rfl⟩
  exact (tracks_modifyHeap fun _ => Heap.keeps_setMethod hm).bind
    fun _ _ _ _ => tracks_pure trivial

/-- The class in which something is defined is no singleton, and the name of what is defined there
is plain. -/
theorem tracks_location (hij : i.Agrees j) (hs : Lives w.heap scope) {path : Node}
    (hn : Lives w.heap path) (hname : S.fromText → path.form.IsPlainPath) :
    Tracks w (i.location scope path) (j.location scope path)
      fun h p => Lives h (.klass p.1 : Value) ∧ (S.fromText → IsPlainName p.2) := by
  have hparts := lives_children hn
  unfold location
  split
  · next name hform =>
    rw [hform] at hname
    exact (asks_reading (Q := fun h o => Lives h (.klass (o.getD Core.object) : Value))
      fun hr => hr.lives_module scope).bind fun _ hc => tracks_pure ⟨hc, hname⟩
  · next outer name hform =>
    rw [hform] at hname hparts
    refine (hij.eval hs (lives_cons.1 hparts).1).bind fun u w' e hu => ?_
    exact ((asks_needClass hu).tracks.tagged _ _).bind fun _ _ _ hc => tracks_pure ⟨hc, hname⟩
  · exact (tracks_fail _).tagged _ _

theorem safe_superclassOf (hij : i.Agrees j) (hs : Lives w.heap scope) {node : Option Node}
    (hn : Lives w.heap node) :
    Tracks w (i.superclassOf scope node) (j.superclassOf scope node)
      fun h o => Lives h (o.map Value.klass) := by
  unfold superclassOf
  split
  · exact tracks_pure lives_none
  · next node =>
    refine (hij.eval hs (lives_some.1 hn)).bind fun u w' e hu => ?_
    exact ((asks_needClass hu).tracks.tagged _ _).bind
      fun _ _ _ hc => tracks_pure (lives_some.2 hc)

section Opening

variable {namespace_ : ClassRef} {name : String} {superclass : Option ClassRef}

theorem safe_newClass (hns : Lives w.heap (.klass namespace_ : Value))
    (hname : S.fromText → IsPlainName name)
    (hfree : (w.heap.klass namespace_).constants.get? name = none) (isModule : Bool)
    (hsuper : Lives w.heap (superclass.map Value.klass)) :
    Tracks w (newClass namespace_ name isModule superclass)
      (newClass namespace_ name isModule superclass) fun h c => Lives h (.klass c : Value) :=
  fun _ => ⟨rfl, Heap.keeps_withClass hns hname hfree hsuper, Heap.lives_withClass⟩

theorem safe_opened (span pathSpan : Span) (hns : Lives w.heap (.klass namespace_ : Value))
    (hname : S.fromText → IsPlainName name) (isModule : Bool)
    (hsuper : Lives w.heap (superclass.map Value.klass)) :
    Tracks w (opened span pathSpan namespace_ name isModule superclass)
      (opened span pathSpan namespace_ name isModule superclass)
      fun h c => Lives h (.klass c : Value) := by
  refine (asks_reading (Q := fun h o => (h.klass namespace_).constants.get? name = o ∧ Lives h o)
    fun hr => ⟨rfl, Heap.lives_get? (hr.lives_constants namespace_) name⟩).bind fun o ho => ?_
  split
  · next c =>
    refine (asks_anything _).bind fun actual _ => ?_
    split
    · exact (tracks_fail _).tagged _ _
    · have hc : Lives w.heap (.klass c : Value) := lives_some.1 ho.2
      exact tracks_pure hc
  · exact (tracks_fail _).tagged _ _
  · exact safe_newClass hns hname ho.1 isModule hsuper

end Opening

theorem safe_openClass (hij : i.Agrees j) (hs : Lives w.heap scope) (span : Span) {path : Node}
    (hpath : Lives w.heap path) (hname : S.fromText → path.form.IsPlainPath)
    {superclass : Option Node} (hsuperclass : Lives w.heap superclass) {body : List Node}
    (hbody : Lives w.heap body) (isModule : Bool) :
    Safe w (i.openClass scope span path superclass body isModule)
      (j.openClass scope span path superclass body isModule) := by
  refine (tracks_location hij hs hpath hname).bind fun place w₁ e₁ hplace => ?_
  refine (safe_superclassOf hij (hs.later e₁) (hsuperclass.later e₁)).bind
    fun s w₂ e₂ hsuper => ?_
  refine (safe_opened span path.span (hplace.1.later e₂) hplace.2 isModule hsuper).bind
    fun c w₃ e₃ hc => ?_
  have e := (e₁.trans e₂).trans e₃
  have hinner : Lives w₃.heap
      ({ parent := some scope, receiver := .klass c, module := some c } : Scope) :=
    ⟨OrderedMap.lives_empty, lives_some.2 (hs.later e), hc, lives_some.2 hc, lives_none⟩
  refine (tracks_alloc (Q := Lives) (fun _ => Heap.keeps_newScope hinner)
    fun _ => Heap.lives_newScope _).bind fun inner w₄ e₄ hs₄ => ?_
  have hnil : Lives w₄.heap Value.nil := trivial
  exact (safe_body hij hs₄ hnil (hbody.later (e.trans e₄))).tagged _ _

end Interp

/-! ## Hash literals -/

namespace Run

variable {α : Type} {T T' : Secrecy} {h h' : Heap} {x y : Run Table}

/-- The computation `x` makes the draft of a table, for which texts are reserved on the way from
`h`, and `y` does the same. -/
def Drafts (S T : Secrecy) (h : Heap) (w : World) (x y : Run Table) : Prop :=
  y w = x w ∧
    match x w with
    | .ok t w' => ∃ T', Heap.Reserves T h T' w'.heap ∧
        ∀ e ∈ t.entries, Heap.Drafted S T' w'.heap e.1 e.2
    | .error _ w' => Heap.ExtendsFrom T h T w'.heap ∧ @Heap.Regular T w'.heap

omit S in
/-- What is reserved before is reserved on the way. -/
theorem Drafts.of_reserves {S : Secrecy} (hx : Drafts S T' h' w x y)
    (g : Heap.Reserves T h T' h') : Drafts S T h w x y := by
  obtain ⟨hsame, hx⟩ := hx
  refine ⟨hsame, ?_⟩
  cases hxw : x w with
  | ok t w' =>
    rw [hxw] at hx
    obtain ⟨T'', g', ht⟩ := hx
    exact ⟨T'', g.trans g', ht⟩
  | error e w' =>
    rw [hxw] at hx
    exact Heap.Reserves.release ⟨g.extended.trans hx.1, hx.2, g.more⟩

omit S in
/-- Something is evaluated while the table is being made. -/
theorem Drafts.bind {S : Secrecy} {x y : Run α} {f g : α → Run Table} {Q : Heap → α → Prop}
    (hx : @Tracks T _ w x y Q) (hr : @Heap.Regular T w.heap)
    (hf : ∀ a w', Heap.ExtendsFrom T w.heap T w'.heap → @Heap.Regular T w'.heap → Q w'.heap a →
      Drafts S T w'.heap w' (f a) (g a)) : Drafts S T w.heap w (x >>= f) (y >>= g) := by
  rcases @Tracks.cases T _ _ _ _ _ hx hr with
    ⟨a, w', hxw, hyw, hk, ha⟩ | ⟨e, w', hxw, hyw, hk⟩
  · obtain ⟨e, hr'⟩ := hk hr
    unfold Drafts
    rw [bind_of_ok hxw, bind_of_ok hyw]
    exact (hf a w' e hr' ha).of_reserves ⟨e, hr', fun _ hc => hc⟩
  · unfold Drafts
    rw [bind_of_error hxw, bind_of_error hyw]
    exact ⟨rfl, hk hr⟩

end Run

namespace Interp

/-- The entries of a hash literal. What is evaluated in between does not get hold of the keys that
were copied before, as these are reserved. -/
theorem drafts_hashEntries (hij : i.Agrees j) {T : Secrecy} (hT : T.toPolicy = S.toPolicy)
    (hmore : ∀ c, S.reserved c → T.reserved c) (hr : @Heap.Regular T w.heap)
    (hs : scope.index < w.heap.scopes.size) {t : Table}
    (ht : ∀ e ∈ t.entries, Heap.Drafted S T w.heap e.1 e.2) {pairs : List (Node × Node)}
    (hn : @Lives _ _ T w.heap pairs) :
    Drafts S T w.heap w (i.hashEntries scope t pairs) (j.hashEntries scope t pairs) := by
  induction pairs generalizing T w t with
  | nil => exact ⟨rfl, T, .refl hr, ht⟩
  | cons p rest ih =>
    obtain ⟨hp, hrest⟩ := lives_cons.1 hn
    refine .bind (hij T hT w _ (.ready ⟨hs, hp.1⟩)) hr fun key w₁ e₁ hr₁ hkey => ?_
    have hs₁ := Nat.lt_of_lt_of_le hs e₁.enlarges.scopes
    refine .bind (hij T hT w₁ _ (.ready ⟨hs₁, hp.2.later e₁⟩)) hr₁ fun value w₂ e₂ hr₂ hvalue => ?_
    have hs₂ := Nat.lt_of_lt_of_le hs₁ e₂.enlarges.scopes
    have ht₂ : ∀ e ∈ t.entries, Heap.Drafted S T w₂.heap e.1 e.2 :=
      fun e he => (ht e he).later hr ⟨e₁.trans e₂, hr₂, fun _ hc => hc⟩
    obtain ⟨T', g, ht₃⟩ := Heap.reserves_insertEntry hr₂ hmore ht₂
      (.of_lives (hkey.later e₂)) hvalue
    exact (ih (w := { w₂ with heap := (w₂.heap.insertEntry t key value).2 })
      (g.extended.policy.trans hT) (fun c hc => g.more c (hmore c hc)) g.regular
      (Nat.lt_of_lt_of_le hs₂ g.extended.enlarges.scopes) ht₃
      ((hrest.later (e₁.trans e₂)).later g.extended)).of_reserves g

theorem safe_hashLiteral (hij : i.Agrees j) (hs : Lives w.heap scope)
    {pairs : List (Node × Node)} (hn : Lives w.heap pairs) :
    Safe w
      (do
        let t ← i.hashEntries scope .empty pairs
        return Value.hash (← alloc (·.newTable t)))
      (do
        let t ← j.hashEntries scope .empty pairs
        return Value.hash (← alloc (·.newTable t))) := by
  intro hr
  obtain ⟨hsame, hx⟩ := drafts_hashEntries hij rfl (fun _ hc => hc) hr hs
    (t := .empty) (fun _ he => by cases he) hn
  cases hxw : i.hashEntries scope .empty pairs w with
  | ok t w' =>
    rw [hxw] at hx hsame
    obtain ⟨T, g, ht⟩ := hx
    rw [bind_of_ok hxw, bind_of_ok hsame]
    exact ⟨rfl, fun _ => g.newTable ht, Heap.lives_newTable t⟩
  | error e w' =>
    rw [hxw] at hx hsame
    rw [bind_of_error hxw, bind_of_error hsame]
    exact ⟨rfl, fun _ => hx⟩

/-! ## Expressions -/

theorem safe_localOrCall (hij : i.Agrees j) (scope : ScopeRef) (span : Span) (name : String) :
    Safe w (i.localOrCall scope span name) (j.localOrCall scope span name) := by
  refine (asks_reading (Q := Lives) fun hr => hr.lives_findLocal scope name).bind fun o ho => ?_
  cases o with
  | some v => exact tracks_pure (lives_some.1 ho)
  | none =>
    refine ((safe_sendImplicit hij scope name lives_nil lives_none).tagged _ _).bind
      fun o w' e ho => ?_
    cases o with
    | some v => exact tracks_pure (lives_some.1 ho)
    | none => exact (tracks_fail _).tagged _ _

theorem safe_scopedConstant (hij : i.Agrees j) (hs : Lives w.heap scope) (span : Span)
    {outer : Node} (hn : Lives w.heap outer) (name : String) :
    Safe w (i.scopedConstant scope span outer name) (j.scopedConstant scope span outer name) :=
  (hij.eval hs hn).bind fun _ _ _ hv =>
    (Reflection.asks_constantOf hv name).tracks.tagged _ _

theorem safe_blockArgument (hij : i.Agrees j) (hs : Lives w.heap scope) {b : BlockArg}
    (hn : Lives w.heap b.children) :
    Safe w (i.blockArgument scope b) (j.blockArgument scope b) := by
  cases b with
  | none => exact tracks_pure lives_none
  | literal b =>
    have hb : Lives w.heap (.block b scope : Callable) := ⟨⟨hs, hn⟩, rfl⟩
    exact tracks_pure (lives_some.2 hb)
  | value node =>
    refine (hij.eval hs (lives_cons.1 hn).1).bind fun v w' e hv => ?_
    split
    · exact tracks_pure lives_none
    · next c =>
      have hc : Lives w'.heap c := hv
      exact tracks_pure (lives_some.2 hc)
    · exact (safe_newNative _).bind fun _ _ _ hm => tracks_pure (lives_some.2 hm)
    · exact (tracks_fail _).tagged _ _

theorem safe_implicit (hij : i.Agrees j) (scope : ScopeRef) (name : String)
    {block : Option Callable} (ha : Lives w.heap args) (hb : Lives w.heap block) :
    Safe w (Interp.call.implicit i scope name args block)
      (Interp.call.implicit j scope name args block) := by
  refine (safe_sendImplicit hij scope name ha hb).bind fun o w' e ho => ?_
  cases o with
  | some v => exact tracks_pure (lives_some.1 ho)
  | none => exact (asks_receiver scope).bind fun _ _ => (asks_noMethod _ name).tracks

theorem safe_call (hij : i.Agrees j) (hs : Lives w.heap scope) (span : Span)
    {receiver : Option Node} (hreceiver : Lives w.heap receiver) (name : String)
    {args : List Node} (hargs : Lives w.heap args) {block : BlockArg}
    (hblock : Lives w.heap block.children) :
    Safe w (i.call scope span receiver name args block)
      (j.call scope span receiver name args block) := by
  unfold call
  split
  · next receiver =>
    refine (hij.eval hs (lives_some.1 hreceiver)).bind fun v w₁ e₁ hv => ?_
    refine (safe_evalAll hij (hs.later e₁) (hargs.later e₁)).bind fun vs w₂ e₂ hvs => ?_
    have e := e₁.trans e₂
    refine (safe_blockArgument hij (hs.later e) (hblock.later e)).bind fun b w₃ e₃ hb => ?_
    exact (safe_send hij (hv.later (e₂.trans e₃)) name (hvs.later e₃) hb).tagged _ _
  · refine (safe_evalAll hij hs hargs).bind fun vs w₁ e₁ hvs => ?_
    refine (safe_blockArgument hij (hs.later e₁) (hblock.later e₁)).bind fun b w₂ e₂ hb => ?_
    exact (safe_implicit hij scope name (hvs.later e₂) hb).tagged _ _

theorem safe_yieldArgs (hij : i.Agrees j) (hs : Lives w.heap scope) (span : Span)
    {args : List Node} (hargs : Lives w.heap args) :
    Safe w (i.yieldArgs scope span args) (j.yieldArgs scope span args) := by
  refine (safe_evalAll hij hs hargs).bind fun vs w' e hvs => ?_
  refine (asks_reading (Q := Lives) fun hr => hr.lives_scope scope).bind fun here hhere => ?_
  refine Tracks.tagged ?_ _ _
  exact (asks_needBlock hhere.2.2.2.2).bind fun b hb => safe_yieldTo hij hb hhere.2.2.1 hvs

theorem safe_loop (hij : i.Agrees j) (hs : Lives w.heap scope) (wanted : Bool) {condition : Node}
    (hcondition : Lives w.heap condition) {body : List Node} (hbody : Lives w.heap body) (n : Nat) :
    Safe w (i.loop scope wanted condition body n) (j.loop scope wanted condition body n) := by
  induction n generalizing w with
  | zero => exact tracks_outOfFuel
  | succ n ih =>
    refine (hij.eval hs hcondition).bind fun v w' e _ => ?_
    split
    · have hnil : Lives w'.heap Value.nil := trivial
      refine (safe_body hij (hs.later e) hnil (hbody.later e)).bind fun _ _ e' _ => ?_
      exact ih (hs.later (e.trans e')) (hcondition.later (e.trans e')) (hbody.later (e.trans e'))
    · exact tracks_pure trivial

theorem safe_form (hij : i.Agrees j) (n : Nat) (hs : Lives w.heap scope) {node : Node}
    (hn : Lives w.heap node) : Safe w (i.form n scope node) (j.form n scope node) := by
  have hnil : ∀ w' : World, Lives w'.heap Value.nil := fun _ => trivial
  have hparts := lives_children hn
  have hsound : S.fromText → node.form.Sound := fun ht => (hn ht).form
  unfold form
  cases hform : node.form <;> rw [hform] at hparts hsound
  case nil | boolean | integer | float | symbol => exact tracks_pure trivial
  case selfRef => exact (asks_receiver scope).tracks
  case str s => exact safe_newText s
  case array items => exact (safe_evalAll hij hs hparts).bind fun _ _ _ hvs => safe_newList hvs
  case hash pairs => exact safe_hashLiteral hij hs (lives_of_flatMap hparts)
  case range low high exclusive =>
    refine (hij.eval hs (lives_cons.1 hparts).1).bind fun v w' e _ => ?_
    have hhigh := (lives_cons.1 (lives_cons.1 hparts).2).1
    refine (hij.eval (hs.later e) (hhigh.later e)).bind fun u w'' _ _ => ?_
    exact (Creation.made_rangeBetween v u exclusive).mono fun _ _ hv => hv.1
  case localVar name => exact safe_localOrCall hij scope _ name
  case instanceVar name => exact (asks_reading fun hr => hr.lives_instanceVariable _ name).tracks
  case classVar name =>
    exact (asks_reading (Q := Lives) fun hr => hr.lives_findClassVariable _ name).bind
      fun _ ho => (asks_ofOption ho).tracks.tagged _ _
  case globalVar name =>
    exact (asks_reading (Q := Lives) fun hr => hr.lives_findLocal _ name).bind
      fun _ ho => tracks_pure (lives_ofOption ho)
  case constant name =>
    exact (asks_reading (Q := Lives) fun hr => hr.lives_lookupConstant scope name).bind
      fun _ ho => (asks_ofOption ho).tracks.tagged _ _
  case «scoped» outer name => exact safe_scopedConstant hij hs _ (lives_cons.1 hparts).1 name
  case call receiver name args block =>
    obtain ⟨hcall, hblock⟩ := lives_append.1 hparts
    obtain ⟨hreceiver, hargs⟩ := lives_append.1 hcall
    exact safe_call hij hs _ (lives_optionToList.1 hreceiver) name hargs hblock
  case index receiver args =>
    obtain ⟨hreceiver, hargs⟩ := lives_cons.1 hparts
    refine (hij.eval hs hreceiver).bind fun v w' e hv => ?_
    refine (safe_evalAll hij (hs.later e) (hargs.later e)).bind fun vs w'' e' hvs => ?_
    exact (safe_send hij (hv.later e') "[]" hvs lives_none).tagged _ _
  case both left right =>
    refine (hij.eval hs (lives_cons.1 hparts).1).bind fun v w' e hv => ?_
    have hright := (lives_cons.1 (lives_cons.1 hparts).2).1
    split
    · exact hij.eval (hs.later e) (hright.later e)
    · exact tracks_pure hv
  case either left right =>
    refine (hij.eval hs (lives_cons.1 hparts).1).bind fun v w' e hv => ?_
    have hright := (lives_cons.1 (lives_cons.1 hparts).2).1
    split
    · exact tracks_pure hv
    · exact hij.eval (hs.later e) (hright.later e)
  case assign target value =>
    exact safe_assign hij hs (lives_cons.1 hparts).1 (lives_cons.1 (lives_cons.1 hparts).2).1
  case branch condition whenTrue whenFalse =>
    obtain ⟨hcondition, hbranches⟩ := lives_cons.1 hparts
    obtain ⟨htrue, hfalse⟩ := lives_append.1 hbranches
    refine (hij.eval hs hcondition).bind fun v w' e _ => ?_
    split
    · exact safe_body hij (hs.later e) (hnil w') (htrue.later e)
    · exact safe_body hij (hs.later e) (hnil w') (hfalse.later e)
  case loop wanted condition body =>
    exact safe_loop hij hs wanted (lives_cons.1 hparts).1 (lives_cons.1 hparts).2 n
  case forEach iterable block =>
    obtain ⟨hiterable, hbody⟩ := lives_cons.1 hparts
    refine (hij.eval hs hiterable).bind fun v w' e hv => ?_
    have hb : Lives w'.heap (.block block scope : Callable) := ⟨⟨hs.later e, hbody.later e⟩, rfl⟩
    exact (safe_send hij hv "each" lives_nil (lives_some.2 hb)).tagged _ _
  case define target m =>
    obtain ⟨htarget, hbody⟩ := lives_append.1 hparts
    exact safe_define hij hs _ (lives_optionToList.1 htarget) hbody
  case openClass path superclass body =>
    obtain ⟨hpath, hrest⟩ := lives_cons.1 hparts
    obtain ⟨hsuperclass, hbody⟩ := lives_append.1 hrest
    exact safe_openClass hij hs _ hpath hsound (lives_optionToList.1 hsuperclass) hbody false
  case openModule path body =>
    obtain ⟨hpath, hbody⟩ := lives_cons.1 hparts
    exact safe_openClass hij hs _ hpath hsound lives_none hbody true
  case lambda b => exact tracks_pure ⟨⟨hs, hparts⟩, rfl⟩
  case sequence body => exact safe_body hij hs (hnil w) hparts
  case yieldTo args => exact safe_yieldArgs hij hs _ hparts
  case superCall | returnWith | nextWith | breakOut | redo | retry => exact tracks_fail _

end Interp

/-! ## Calls -/

theorem Heap.Regular.lives_classAt? {h : Heap} (hr : h.Regular) (path : List String) :
    Lives h ((h.classAt? path).map Value.klass) := by
  have hfold : ∀ (path : List String) (c : ClassRef), Lives h (.klass c : Value) →
      ∀ k, path.foldlM (fun c name => ((h.klass c).constants.get? name).bind Value.klass?) c =
        some k → Lives h (.klass k : Value) := by
    intro path
    induction path with
    | nil =>
      intro c hc k hk
      cases hk
      exact hc
    | cons name rest ih =>
      intro c hc k hk
      rw [List.foldlM_cons] at hk
      obtain ⟨c', hc', hk⟩ := Option.bind_eq_some_iff.1 hk
      obtain ⟨v, hv, hclass⟩ := Option.bind_eq_some_iff.1 hc'
      have hlives := OrderedMap.lives_of_get? (hr.lives_constants c) hv
      refine ih c' ?_ k hk
      cases v <;> cases hclass
      exact hlives
  intro v hv
  obtain ⟨k, hk, rfl⟩ := Option.map_eq_some_iff.1 hv
  exact hfold path _ (hr.lives_coreValue (by decide)) k hk

mutual

theorem Literal.safe_build {w : World} : ∀ l : Literal, Safe w l.build l.build
  | .nil | .bool _ | .int _ | .float _ | .symbol _ | .range .. => by
    unfold build
    exact tracks_pure trivial
  | .str s => by
    unfold build
    exact safe_newText s
  | .array items => by
    unfold build
    exact (safe_buildAll items).bind fun _ _ _ hvs => safe_newList hvs
  | .hash pairs => by
    unfold build
    exact (safe_buildPairs pairs).bind fun _ _ _ hps => safe_newHash hps
  | .global name => by
    unfold build
    exact (asks_reading (Q := Lives) fun hr => hr.lives_findLocal _ name).bind
      fun _ ho => tracks_pure (lives_ofOption ho)
  | .constant path => by
    unfold build
    exact (asks_reading (Q := fun h o => Lives h (o.map Value.klass))
      fun hr => hr.lives_classAt? path).bind fun _ ho => tracks_pure (lives_ofOption ho)

theorem Literal.safe_buildAll {w : World} :
    ∀ ls : List Literal, Safe w (buildAll ls) (buildAll ls)
  | [] => by
    unfold buildAll
    exact tracks_pure lives_nil
  | l :: rest => by
    unfold buildAll
    refine (safe_build l).bind fun v _ _ hv => ?_
    exact (safe_buildAll rest).bind fun _ _ e hvs =>
      tracks_pure (lives_cons.2 ⟨hv.later e, hvs⟩)

theorem Literal.safe_buildPairs {w : World} :
    ∀ ls : List (Literal × Literal), Safe w (buildPairs ls) (buildPairs ls)
  | [] => by
    unfold buildPairs
    exact tracks_pure lives_nil
  | (k, l) :: rest => by
    unfold buildPairs
    refine (safe_build k).bind fun key _ _ hk => ?_
    refine (safe_build l).bind fun v _ e hv => ?_
    exact (safe_buildPairs rest).bind fun _ _ e' hvs =>
      tracks_pure (lives_cons.2 ⟨⟨hk.later (e.trans e'), hv.later e'⟩, hvs⟩)

end

theorem safe_bumpCounter (hc : Lives w.heap call) :
    Safe w (bumpCounter call) (bumpCounter call) := by
  refine (asks_anything _).bind fun count _ => ?_
  exact Universal.safe_assign hc.1 _ trivial

theorem HostMethod.safe_run (hij : i.Agrees j) (m : HostMethod) (hc : Lives w.heap call) :
    Safe w (m.run i call) (m.run j call) := by
  unfold HostMethod.run
  cases m with
  | arguments => exact safe_newList hc.2.1
  | receiver => exact tracks_pure hc.1
  | constant value => exact value.safe_build
  | fail message => exact tracks_fail _
  | call name => exact Interp.safe_send hij hc.1 name hc.2.1 lives_none
  | bump => exact safe_bumpCounter hc
  | yield =>
    dsimp only
    split
    · next block hblock =>
      exact Interp.safe_yieldTo hij (lives_some.1 (hblock ▸ hc.2.2)) hc.1 hc.2.1
    · exact tracks_pure trivial

theorem Native.safe_run (hij : i.Agrees j) (m : Native) (hc : Lives w.heap call) :
    Safe w (m.run i call) (m.run j call) := by
  unfold Native.run
  cases m with
  | symbolCall name =>
    dsimp only
    split
    · next receiver rest hargs =>
      have ha : Lives w.heap (receiver :: rest) := hargs ▸ hc.2.1
      exact Interp.safe_send hij (lives_cons.1 ha).1 name (lives_cons.1 ha).2 hc.2.2
    · exact tracks_fail _
  | reader slot => exact (asks_reading fun hr => hr.lives_instanceVariable _ slot).tracks
  | writer slot =>
    exact (asks_single hc.2.1).bind fun _ hv => Universal.safe_assign hc.1 slot hv
  | host m => exact m.safe_run hij hc

/-! ## Methods and blocks of programs -/

theorem Params.lives_bind {h : Heap} (p : Params) {block : Option Callable} (ha : Lives h args)
    (hb : Lives h block) : Lives h (p.bind args block) := by
  have hnamed : Lives h (OrderedMap.ofList (p.names.zip args)) :=
    OrderedMap.lives_ofList fun q hq => ha q.2 (List.of_mem_zip hq).2
  unfold Params.bind
  dsimp only
  split
  · exact hnamed
  · refine OrderedMap.lives_insert hnamed ?_
    cases block with
    | none => trivial
    | some c =>
      have hc : Lives h c := lives_some.1 hb
      exact hc

theorem Params.asks_spread (p : Params) (ha : Lives w.heap args) :
    Asks w (p.spread args) Lives := by
  unfold Params.spread
  split
  · next r =>
    split
    · exact (asks_items r).andThen fun _ hi => asks_pure (lives_toList.2 hi)
    · exact asks_pure ha
  · exact asks_pure ha

namespace Interp

theorem safe_runBody (hij : i.Agrees j) (site : Site) (hs : Lives w.heap scope)
    {body : List Node} (hn : Lives w.heap body) :
    Safe w (i.runBody site scope body) (j.runBody site scope body) := by
  have hnil : Lives w.heap Value.nil := trivial
  exact (safe_body hij hs hnil hn).mapFailure _

theorem safe_inScope (hij : i.Agrees j) (site : Site) {s : Scope} (hs : Lives w.heap s)
    {body : List Node} (hn : Lives w.heap body) :
    Safe w (do i.runBody site (← alloc (·.newScope s)) body)
      (do j.runBody site (← alloc (·.newScope s)) body) :=
  (tracks_alloc (Q := Lives) (fun _ => Heap.keeps_newScope hs)
    fun _ => Heap.lives_newScope s).bind fun _ _ e hs' => safe_runBody hij site hs' (hn.later e)

theorem safe_runMethod (hij : i.Agrees j) {m : Method} (hs : Lives w.heap scope)
    (hn : Lives w.heap m.body) (hc : Lives w.heap call) :
    Safe w (i.runMethod m scope call) (j.runMethod m scope call) := by
  refine (asks_reading (Q := Lives) fun hr => hr.lives_scope scope).bind fun outer ho => ?_
  have hscope : Lives w.heap
      ({ locals := m.params.bind call.args call.block, parent := some scope,
         receiver := call.receiver, module := outer.module, block := call.block,
         kind := .plain } : Scope) :=
    ⟨m.params.lives_bind hc.2.1 hc.2.2, lives_some.2 hs, hc.1, ho.2.2.2.1, hc.2.2⟩
  exact safe_inScope hij m.site hscope hn

theorem safe_runBlock (hij : i.Agrees j) {b : Block} (hs : Lives w.heap scope)
    (hn : Lives w.heap b.body) (hc : Lives w.heap call) :
    Safe w (i.runBlock b scope call) (j.runBlock b scope call) := by
  unfold runBlock
  split
  · exact safe_runBody hij b.site hs hn
  · refine (asks_reading (Q := Lives) fun hr => hr.lives_scope scope).bind fun outer ho => ?_
    refine (b.params.asks_spread hc.2.1).bind fun args ha => ?_
    have hscope : Lives w.heap
        ({ locals := b.params.bind args call.block, parent := some scope,
           receiver := outer.receiver, module := outer.module, block := outer.block,
           kind := .block } : Scope) :=
      ⟨b.params.lives_bind ha hc.2.2, lives_some.2 hs, ho.2.2⟩
    exact safe_inScope hij b.site hscope hn

end Interp

/-! ## One level of evaluation -/

theorem Builtin.safe_run (hij : i.Agrees j) (n : Nat) (b : Builtin) (hc : Lives w.heap call)
    (hopen : ∀ m, b = .hash m → m.handsOutKeys = true →
      ∀ r, w.heap.tableRef? call.receiver = some r → ¬S.discreet r) :
    Safe w (b.run i n call) (b.run j n call) := by
  cases b with
  | kernel m => exact Kernel.safe_run hij m hc
  | object m => exact Universal.safe_run hij m hc
  | nil m => exact Universal.safe_runNil m
  | module m => exact Reflection.safe_run m hc
  | klass m => exact Creation.safe_run hij m hc
  | numeric m => exact (Arithmetic.asks_run m hc).tracks
  | integer m => exact Arithmetic.safe_runInteger hij m hc
  | float m => exact Arithmetic.safe_runFloat m
  | string m => exact Texts.safe_run m hc
  | symbol m => exact Texts.safe_runSymbol m hc
  | array m => exact Lists.safe_run hij m hc
  | hash m => exact Tables.safe_run hij m hc (hopen m rfl)
  | range m => exact Ranges.safe_run hij m hc
  | proc m => exact Ranges.safe_runProc hij m hc

/-- A task that is ready keeps the heap regular, whatever evaluator its parts are left to, unless it
would hand out what is kept from programs. -/
theorem safe_step (hij : i.Agrees j) (n : Nat) {task : Task} (ht : task.Allowed w.heap)
    (hopen : ¬task.Exposes S.discreet w.heap) : Safe w (step n i task) (step n j task) := by
  cases ht with
  | exposing ht => exact absurd ht hopen
  | look hk ha hb => exact asks_needText.bind fun _ _ => safe_newText _
  | ready ht =>
    cases task with
    | eval scope node => exact (Interp.safe_form hij n ht.1 ht.2).mapFailure _
    | invoke c receiver args block =>
      obtain ⟨hc, hcall⟩ := ht
      cases c with
      | method m s => exact Interp.safe_runMethod hij hc.1.1 hc.1.2 hcall
      | block b s => exact Interp.safe_runBlock hij hc.1.1 hc.1.2 hcall
      | builtin b =>
        refine b.safe_run hij n hcall fun m hm hkeys r hr hd => hopen (.inl ?_)
        exact ⟨m, r, congrArg Callable.builtin hm, hkeys, hr, hd⟩
      | native serial m => exact m.safe_run hij hcall

end Spinel
