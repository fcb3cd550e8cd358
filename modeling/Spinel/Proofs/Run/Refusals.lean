import Spinel.Proofs.Run.Padding

/-!
# Methods that fail change nothing

A method that changes what it is called on asks all its questions first, which leave the state alone
(`Run.Looks`), and then makes its changes, which do not fail (`Run.Succeeds`). So if it fails, the
state is as it was (`Run.AllOrNothing`). The methods are named in `Session.mutators`, and
`Session.failing_mutators_change_nothing` says it of all of them.
-/

namespace Spinel

variable {α β : Type}

namespace Run

/-! ## Questions and changes -/

/-- The computation leaves every state as it is, with or without a result. -/
def Looks (x : Run α) : Prop := ∀ w, (∃ a, x w = .ok a w) ∨ ∃ e, x w = .error e w

/-- The computation has a result in every state. -/
def Succeeds (x : Run α) : Prop := ∀ w, ∃ a w', x w = .ok a w'

/-- If the computation fails, it leaves the state as it was. -/
def AllOrNothing (x : Run α) : Prop := ∀ w e w', x w = .error e w' → w' = w

variable {x : Run α} {f : α → Run β}

theorem Looks.andThen (hx : Looks x) (hf : ∀ a, Looks (f a)) : Looks (x >>= f) := by
  intro w
  obtain ⟨a, ha⟩ | ⟨e, he⟩ := hx w
  · rw [bind_of_ok ha]
    exact hf a w
  · rw [bind_of_error he]
    exact .inr ⟨e, rfl⟩

theorem Looks.bind (hx : Looks x) (hf : ∀ a, AllOrNothing (f a)) : AllOrNothing (x >>= f) := by
  intro w e w' hfail
  obtain ⟨a, ha⟩ | ⟨e', he⟩ := hx w
  · rw [bind_of_ok ha] at hfail
    exact hf a w e w' hfail
  · rw [bind_of_error he] at hfail
    cases hfail
    rfl

theorem Looks.allOrNothing (hx : Looks x) : AllOrNothing x := by
  intro w e w' hfail
  obtain ⟨a, ha⟩ | ⟨e', he⟩ := hx w
  · rw [ha] at hfail
    cases hfail
  · rw [he] at hfail
    cases hfail
    rfl

theorem Succeeds.bind (hx : Succeeds x) (hf : ∀ a, Succeeds (f a)) : Succeeds (x >>= f) := by
  intro w
  obtain ⟨a, w₁, ha⟩ := hx w
  rw [bind_of_ok ha]
  exact hf a w₁

theorem Succeeds.allOrNothing (hx : Succeeds x) : AllOrNothing x := by
  intro w e w' hfail
  obtain ⟨a, w₁, ha⟩ := hx w
  rw [ha] at hfail
  cases hfail

/-! ## What methods are made of -/

theorem looks_pure (a : α) : Looks (pure a) := fun _ => .inl ⟨a, rfl⟩

theorem looks_fail (fault : Fault) : Looks (fail fault : Run α) := fun _ => .inr ⟨_, rfl⟩

theorem looks_reading (g : Heap → α) : Looks (reading g) := fun _ => .inl ⟨_, rfl⟩

theorem looks_readingSome (g : Heap → Option α) : Looks (readingSome g) := by
  intro w
  rw [readingSome_apply]
  cases g w.heap with
  | none => exact .inr ⟨_, rfl⟩
  | some a => exact .inl ⟨a, rfl⟩

theorem looks_single (args : List Value) : Looks (single args) := by
  unfold single
  split
  · exact looks_pure _
  · exact looks_fail _

theorem looks_needs (wanted : Shape) (g : Heap → Value → Option α) (v : Value) :
    Looks (needs wanted g v) := by
  refine (looks_reading _).andThen fun o => ?_
  cases o with
  | none => exact looks_fail _
  | some a => exact looks_pure a

theorem looks_needClass (v : Value) : Looks (needClass v) := by
  unfold needClass
  split
  · exact looks_pure _
  · exact (looks_readingSome _).andThen fun _ => looks_fail _

theorem looks_textArgument (args : List Value) : Looks (textArgument args) :=
  (looks_single args).andThen fun v => looks_needs _ _ v

theorem looks_needNames (args : List Value) : Looks (needNames args) := by
  induction args with
  | nil => exact looks_pure []
  | cons v rest ih =>
    refine (looks_needs _ _ v).andThen fun name => ?_
    exact ih.andThen fun names => looks_pure (name :: names)

theorem succeeds_pure (a : α) : Succeeds (pure a) := fun w => ⟨a, w, rfl⟩

theorem succeeds_modifyHeap (g : Heap → Heap) : Succeeds (modifyHeap g) := fun _ => ⟨_, _, rfl⟩

theorem succeeds_newNative (m : Native) : Succeeds (newNative m) := fun _ => ⟨_, _, rfl⟩

theorem succeeds_newList (items : List Value) : Succeeds (newList items) := fun _ => ⟨_, _, rfl⟩

theorem allOrNothing_modifyHeap (g : Heap → Heap) (a : α) :
    AllOrNothing (do modifyHeap g; pure a : Run α) :=
  ((succeeds_modifyHeap g).bind fun _ => succeeds_pure a).allOrNothing

end Run

open Run

/-! ## Arrays -/

namespace Lists

variable (interp : Interp) (n : Nat) (call : Call)

theorem allOrNothing_storeAt (r : ListRef) (i : Int64) (v : Value) :
    AllOrNothing (storeAt r i v) := by
  intro w e w' hfail
  rw [storeAt_apply rfl] at hfail
  split at hfail
  · cases hfail
    rfl
  · split at hfail
    · cases hfail
      rfl
    · cases hfail

theorem allOrNothing_run_store : AllOrNothing (run interp n .store call) := by
  refine (looks_needs _ _ _).bind fun r => ?_
  unfold store
  split
  · exact allOrNothing_storeAt r _ _
  · exact (looks_fail _).allOrNothing
  · exact (looks_fail _).allOrNothing

theorem allOrNothing_run_pushOne : AllOrNothing (run interp n .pushOne call) := by
  refine (looks_single _).bind fun v => ?_
  exact (looks_needs _ _ _).bind fun r => allOrNothing_modifyHeap _ _

theorem allOrNothing_run_push : AllOrNothing (run interp n .push call) :=
  (looks_needs _ _ _).bind fun _ => allOrNothing_modifyHeap _ _

theorem allOrNothing_run_pop : AllOrNothing (run interp n .pop call) := by
  refine (looks_needs _ _ _).bind fun r => ?_
  exact (looks_reading _).bind fun last => allOrNothing_modifyHeap _ _

theorem allOrNothing_run_clear : AllOrNothing (run interp n .clear call) :=
  (looks_needs _ _ _).bind fun _ => allOrNothing_modifyHeap _ _

end Lists

/-! ## Hashes -/

namespace Tables

variable (interp : Interp) (call : Call)

theorem allOrNothing_run_store : AllOrNothing (run interp .store call) := by
  change AllOrNothing (store call.receiver call.args)
  unfold store
  split
  · exact (looks_needs _ _ _).bind fun r => allOrNothing_modifyHeap _ _
  · exact (looks_fail _).allOrNothing

theorem allOrNothing_run_delete : AllOrNothing (run interp .delete call) := by
  refine (looks_single _).bind fun key => ?_
  refine (looks_needs _ _ _).bind fun r => ?_
  exact (looks_reading _).bind fun value => allOrNothing_modifyHeap _ _

theorem allOrNothing_run_clear : AllOrNothing (run interp .clear call) :=
  (looks_needs _ _ _).bind fun _ => allOrNothing_modifyHeap _ _

end Tables

/-! ## Strings -/

theorem Texts.allOrNothing_run_append (call : Call) : AllOrNothing (Texts.run .append call) := by
  refine (looks_needs _ _ _).bind fun r => ?_
  exact (looks_textArgument _).bind fun s => allOrNothing_modifyHeap _ _

/-! ## Classes -/

namespace Reflection

variable (c : ClassRef)

theorem succeeds_defineNative (m : Native) (name : String) :
    Succeeds (do
      let callable ← newNative m
      modifyHeap (·.setMethod c name callable)
      return Value.symbol name : Run Value) :=
  (succeeds_newNative m).bind fun _ => (succeeds_modifyHeap _).bind fun _ => succeeds_pure _

theorem succeeds_defineReader (name : String) : Succeeds (defineReader c name) :=
  succeeds_defineNative c _ name

theorem succeeds_defineWriter (name : String) : Succeeds (defineWriter c name) :=
  succeeds_defineNative c _ (name ++ "=")

theorem succeeds_defineReaders (names : List String) : Succeeds (defineReaders c names) := by
  induction names with
  | nil => exact succeeds_pure []
  | cons name rest ih =>
    exact (succeeds_defineReader c name).bind fun v => ih.bind fun vs => succeeds_pure (v :: vs)

theorem succeeds_defineWriters (names : List String) : Succeeds (defineWriters c names) := by
  induction names with
  | nil => exact succeeds_pure []
  | cons name rest ih =>
    exact (succeeds_defineWriter c name).bind fun v => ih.bind fun vs => succeeds_pure (v :: vs)

theorem succeeds_defineAccessors (names : List String) : Succeeds (defineAccessors c names) := by
  induction names with
  | nil => exact succeeds_pure []
  | cons name rest ih =>
    refine (succeeds_defineReader c name).bind fun r => ?_
    refine (succeeds_defineWriter c name).bind fun w => ?_
    exact ih.bind fun vs => succeeds_pure (r :: w :: vs)

/-- All names are looked at before the first method is defined. -/
theorem allOrNothing_define {define : List String → Run (List Value)}
    (hdefine : ∀ names, Succeeds (define names)) (args : List Value) :
    AllOrNothing (do newList (← define (← needNames args)) : Run Value) :=
  (looks_needNames args).bind fun names =>
    ((hdefine names).bind fun vs => succeeds_newList vs).allOrNothing

theorem allOrNothing_run_accessor (call : Call) : AllOrNothing (run .accessor call) :=
  (looks_needClass _).bind fun c => allOrNothing_define (succeeds_defineAccessors c) call.args

theorem allOrNothing_run_reader (call : Call) : AllOrNothing (run .reader call) :=
  (looks_needClass _).bind fun c => allOrNothing_define (succeeds_defineReaders c) call.args

theorem allOrNothing_run_writer (call : Call) : AllOrNothing (run .writer call) :=
  (looks_needClass _).bind fun c => allOrNothing_define (succeeds_defineWriters c) call.args

end Reflection

/-! ## Instance variables -/

namespace Universal

theorem allOrNothing_assign (receiver : Value) (name : String) (v : Value) :
    AllOrNothing (assign receiver name v) := by
  refine (looks_reading _).bind fun o => ?_
  cases o with
  | none => exact (looks_fail _).allOrNothing
  | some heap => exact allOrNothing_modifyHeap _ _

theorem allOrNothing_run_variableSet (interp : Interp) (call : Call) :
    AllOrNothing (run interp .variableSet call) := by
  change AllOrNothing (variableSet call.receiver call.args)
  unfold variableSet
  split
  · exact (looks_needs _ _ _).bind fun name => allOrNothing_assign _ name _
  · exact (looks_fail _).allOrNothing

end Universal

/-! ## All of them -/

namespace Session

/-- The methods that change what they are called on: the class that has each of them in a new
session, and its name there. -/
def mutators : List (ClassRef × String) :=
  [(Core.array, "[]="), (Core.array, "<<"), (Core.array, "push"), (Core.array, "append"),
    (Core.array, "pop"), (Core.array, "clear"), (Core.hash, "[]="), (Core.hash, "store"),
    (Core.hash, "delete"), (Core.hash, "clear"), (Core.string, "<<"), (Core.string, "concat"),
    (Core.module, "attr_accessor"), (Core.module, "attr_reader"), (Core.module, "attr_writer"),
    (Core.object, "instance_variable_set")]

/-- The built-in method that a class has under a name in a new session. -/
def builtin? (c : ClassRef) (name : String) : Option Builtin :=
  match (Core.heap.klass c).methods.get? name with
  | some (.builtin b) => some b
  | _ => none

/-- The built-in methods behind these names. -/
def changing : List Builtin :=
  [.array .store, .array .pushOne, .array .push, .array .pop, .array .clear, .hash .store,
    .hash .delete, .hash .clear, .string .append, .module .accessor, .module .reader,
    .module .writer, .object .variableSet]

theorem exists_changing : ∀ m ∈ mutators, ∃ b ∈ changing, builtin? m.1 m.2 = some b := by decide

theorem allOrNothing_of_changing (interp : Interp) (n : Nat) (call : Call) {b : Builtin}
    (hb : b ∈ changing) : AllOrNothing (b.run interp n call) := by
  simp only [changing, List.mem_cons, List.not_mem_nil, or_false] at hb
  rcases hb with rfl | rfl | rfl | rfl | rfl | rfl | rfl | rfl | rfl | rfl | rfl | rfl | rfl
  · exact Lists.allOrNothing_run_store interp n call
  · exact Lists.allOrNothing_run_pushOne interp n call
  · exact Lists.allOrNothing_run_push interp n call
  · exact Lists.allOrNothing_run_pop interp n call
  · exact Lists.allOrNothing_run_clear interp n call
  · exact Tables.allOrNothing_run_store interp call
  · exact Tables.allOrNothing_run_delete interp call
  · exact Tables.allOrNothing_run_clear interp call
  · exact Texts.allOrNothing_run_append call
  · exact Reflection.allOrNothing_run_accessor call
  · exact Reflection.allOrNothing_run_reader call
  · exact Reflection.allOrNothing_run_writer call
  · exact Universal.allOrNothing_run_variableSet interp call

/-- Whatever the state, the receiver and the arguments, a method that changes what it is called on
either gives a result or leaves the whole state as it was. -/
theorem failing_mutators_change_nothing (c : ClassRef) (name : String)
    (hmem : (c, name) ∈ mutators) :
    ∃ b, builtin? c name = some b ∧
      ∀ (interp : Interp) (n : Nat) (call : Call) (w w' : World) (e : Halt),
        b.run interp n call w = .error e w' → w' = w := by
  obtain ⟨b, hb, hsome⟩ := exists_changing (c, name) hmem
  exact ⟨b, hsome, fun interp n call w w' e => allOrNothing_of_changing interp n call hb w e w'⟩

/-- Accessors for two names, the second of which is none. -/
theorem failing_mutators_change_nothing_second_name :
    let w : World := { heap := Core.heap }
    let call : Call := ⟨.klass Core.object, [.symbol "a", .int 1], none⟩
    (Core.module, "attr_accessor") ∈ mutators ∧
      builtin? Core.module "attr_accessor" = some (.module .accessor) ∧
      ∃ e w', Builtin.run evaluator 0 (.module .accessor) call w = .error e w' ∧ w' = w := by
  intro w call
  have hmem : (Core.module, "attr_accessor") ∈ mutators := by decide
  have hname : builtin? Core.module "attr_accessor" = some (.module .accessor) := by decide
  obtain ⟨b, hb, hkeeps⟩ := failing_mutators_change_nothing _ _ hmem
  obtain rfl : b = .module .accessor := Option.some.inj (hb.symm.trans hname)
  have hfails : Builtin.run evaluator 0 (.module .accessor) call w =
      .error (.failed { fault := .notConvertible .integer .symbol }) w := rfl
  exact ⟨hmem, hname, _, _, hfails, hkeeps evaluator 0 call w _ _ hfails⟩

end Session

end Spinel
