import Spinel.Proofs.Heap.Containment
import Spinel.Proofs.Run.Receivers
import Spinel.Proofs.Text.Words

/-!
# Constants by path

A constant inside classes and modules can be named in two ways: by an expression `C::A::B`, whose
parts are evaluated from the inside out, and by `C.const_get("A::B")`, which cuts a text into names.
Both follow the names from one class to the next (`Heap.Reaches`), stop for the same reason where a
name leads nowhere (`Heap.Halts`), and change nothing (`const_get_agrees_with_scoped`). The reason
may have to quote a value, and neither way comes to an end if this value contains itself.
-/

namespace Spinel

open Run

/-! ## Following names -/

namespace Heap

variable {h : Heap}

/-- Names lead from a value to another, each to a constant of a class or of a superclass of it. -/
inductive Reaches (h : Heap) : Value → List String → Value → Prop
  | nil {v : Value} : Reaches h v [] v
  | cons {c : ClassRef} {name : String} {names : List String} {u v : Value}
      (hfound : h.findConstant c name = some u) (hrest : Reaches h u names v) :
      Reaches h (.klass c) (name :: names) v

/-- Why names cannot be followed from a value: one of them is no constant of the class that those
before it lead to, or these lead to something that is no class. There is no cause to give if this
something cannot be described. -/
inductive Halts (h : Heap) : Value → List String → Option Fault → Prop
  | missing {c : ClassRef} {name : String} {names : List String}
      (hmissing : h.findConstant c name = none) :
      Halts h (.klass c) (name :: names) (some (.uninitializedConstant name))
  | notAClass {v : Value} {name : String} {names : List String} (hv : v.klass? = none) :
      Halts h v (name :: names) ((h.describe v).map .notAClass)
  | cons {c : ClassRef} {name : String} {names : List String} {u : Value} {cause : Option Fault}
      (hfound : h.findConstant c name = some u) (hrest : Halts h u names cause) :
      Halts h (.klass c) (name :: names) cause

/-- Some names before the last lead from a value to something that is no class and contains
itself. -/
def LeadsToEndless (h : Heap) (v : Value) (names : List String) : Prop :=
  ∃ before name after u, names = before ++ name :: after ∧ h.Reaches v before u ∧
    u.klass? = none ∧ h.Endless u

theorem Halts.leadsToEndless {v : Value} {names : List String} (hhalts : h.Halts v names none) :
    h.LeadsToEndless v names := by
  generalize hcause : (none : Option Fault) = cause at hhalts
  induction hhalts with
  | missing => cases hcause
  | @notAClass v name names hv =>
    have hnone := Option.map_eq_none_iff.1 hcause.symm
    exact ⟨[], name, names, v, rfl, .nil, hv, describe_eq_none_iff.1 hnone⟩
  | cons hfound _ ih =>
    obtain ⟨before, name, after, u, rfl, hreaches, hu⟩ := ih hcause
    exact ⟨_ :: before, name, after, u, rfl, .cons hfound hreaches, hu⟩

theorem reaches_or_halts (v : Value) (names : List String) :
    (∃ u, h.Reaches v names u) ∨ ∃ cause, h.Halts v names cause := by
  induction names generalizing v with
  | nil => exact .inl ⟨v, .nil⟩
  | cons name names ih =>
    cases hv : v.klass? with
    | none => exact .inr ⟨_, .notAClass hv⟩
    | some c =>
      obtain rfl : v = .klass c := by cases v <;> simp_all [Value.klass?]
      cases hfound : h.findConstant c name with
      | none => exact .inr ⟨_, .missing hfound⟩
      | some u =>
        rcases ih u with ⟨x, hx⟩ | ⟨cause, hcause⟩
        · exact .inl ⟨x, .cons hfound hx⟩
        · exact .inr ⟨cause, .cons hfound hcause⟩

end Heap

/-- The cause of a failure. A computation that has no end fails for none. -/
def Halt.cause : Halt → Option Fault
  | .failed f => some f.fault
  | .outOfFuel => none

/-- A computation stopped for a cause and left a state. -/
def Run.Fails {α : Type} (cause : Option Fault) (w : World)
    (result : EStateM.Result Halt World α) : Prop :=
  ∃ e : Halt, result = .error e w ∧ e.cause = cause

variable {w w₀ : World} {c : ClassRef} {v u : Value} {cause : Option Fault} {name : String}
  {names : List String}

/-- What is noted on the way of a failure does not change its cause. -/
theorem Run.Fails.mapFailure {α : Type} {x : Run α} {change : Failure → Failure}
    (hx : Fails cause w (x w₀)) (hchange : ∀ f, (change f).fault = f.fault) :
    Fails cause w (x.mapFailure change w₀) := by
  obtain ⟨e, he, hcause⟩ := hx
  unfold Run.mapFailure
  rw [he]
  cases e with
  | failed f => exact ⟨_, rfl, (congrArg some (hchange f)).trans hcause⟩
  | outOfFuel => exact ⟨_, rfl, hcause⟩

theorem Run.Fails.bind {α β : Type} {x : Run α} (hx : Fails cause w (x w₀)) (f : α → Run β) :
    Fails cause w ((x >>= f) w₀) := by
  obtain ⟨e, he, hcause⟩ := hx
  exact ⟨e, bind_of_error he f, hcause⟩

theorem Run.Fails.eq_outOfFuel {α : Type} {result : EStateM.Result Halt World α}
    (h : Fails none w result) : result = .error .outOfFuel w := by
  obtain ⟨e, rfl, he⟩ := h
  cases e with
  | failed f => cases he
  | outOfFuel => rfl

/-! ## By a text -/

namespace Reflection

theorem constantOf_of_some (hfound : w.heap.findConstant c name = some u) :
    constantOf (.klass c) name w = .ok u w := by
  change ofOption _ (w.heap.findConstant c name) w = _
  rw [hfound]
  rfl

theorem fails_constantOf_of_none (hmissing : w.heap.findConstant c name = none) :
    Fails (some (.uninitializedConstant name)) w (constantOf (.klass c) name w) := by
  change Fails _ w (ofOption _ (w.heap.findConstant c name) w)
  rw [hmissing]
  exact ⟨_, rfl, rfl⟩

theorem fails_constantOf_of_not_klass (hv : v.klass? = none) (name : String) :
    Fails ((w.heap.describe v).map .notAClass) w (constantOf v name w) := by
  have hneed : needClass v = readingSome (·.describe v) >>= fun text => fail (.notAClass text) := by
    cases v with
    | klass c => cases hv
    | nil | bool | int | float | symbol | str | array | hash | range | proc | object => rfl
  refine Fails.bind (x := needClass v) ?_ _
  rw [hneed, bind_apply, readingSome_apply]
  cases w.heap.describe v with
  | none => exact ⟨_, rfl, rfl⟩
  | some text => exact ⟨_, rfl, rfl⟩

theorem followPath_of_reaches (hreaches : w.heap.Reaches v names u) :
    followPath v names w = .ok u w := by
  induction hreaches with
  | nil => rfl
  | cons hfound _ ih => exact (bind_of_ok (constantOf_of_some hfound) _).trans ih

theorem fails_followPath_of_halts (hhalts : w.heap.Halts v names cause) :
    Fails cause w (followPath v names w) := by
  induction hhalts with
  | missing hmissing => exact (fails_constantOf_of_none hmissing).bind _
  | notAClass hv => exact (fails_constantOf_of_not_klass hv _).bind _
  | cons hfound _ ih =>
    unfold followPath
    rw [bind_of_ok (constantOf_of_some hfound)]
    exact ih

/-- Names that were joined to a qualified name are found in it again. -/
theorem segments_intercalate (hnames : ∀ name ∈ names, name ≠ "" ∧ ':' ∉ name.toList) :
    segments ("::".intercalate names) = names := by
  by_cases hempty : names = []
  · subst hempty
    rfl
  · have hpieces : Text.pieces [':', ':'] ("::".intercalate names).toList =
        names.map String.toList := by
      rw [String.toList_intercalate]
      apply Text.pieces_intercalate
      · simpa using hempty
      · intro piece hpiece
        obtain ⟨name, hname, rfl⟩ := List.mem_map.1 hpiece
        exact (hnames name hname).2
    have hkept : (names.map String.toList).filter (!·.isEmpty) = names.map String.toList := by
      rw [List.filter_eq_self]
      intro piece hpiece
      obtain ⟨name, hname, rfl⟩ := List.mem_map.1 hpiece
      simpa using (hnames name hname).1
    unfold segments
    rw [hpieces, hkept, List.map_map]
    simp

end Reflection

/-! ## By an expression -/

/-- The node that names constants one inside the other, each with the stretch of source up to it. -/
def Node.through (base : Node) (path : List (Span × String)) : Node :=
  path.foldl (fun outer step => ⟨step.1, .scoped outer step.2⟩) base

theorem Failure.fault_tagFirst (f : Failure) (span : Span) (action : Action) :
    (f.tagFirst span action).fault = f.fault := by
  unfold Failure.tagFirst
  split <;> rfl

section Through

variable {n : Nat} {scope : ScopeRef} {base : Node} {path : List (Span × String)}

theorem eval_scoped (n : Nat) (scope : ScopeRef) (span : Span) (base : Node) (name : String) :
    interpreter (n + 1) (.eval scope ⟨span, .scoped base name⟩) =
      ((interpreter n).scopedConstant scope span base name).mapFailure
        (·.tagFirst span .evaluating) := rfl

/-- A constant of what was evaluated is found as on its own. -/
theorem eval_scoped_of_ok {span : Span}
    (hbase : interpreter n (.eval scope base) w₀ = .ok v w)
    (hfound : Reflection.constantOf v name w = .ok u w) :
    interpreter (n + 1) (.eval scope ⟨span, .scoped base name⟩) w₀ = .ok u w := by
  have hscoped : (interpreter n).scopedConstant scope span base name w₀ = .ok u w := by
    refine (bind_of_ok hbase _).trans ?_
    unfold tagged mapFailure
    rw [hfound]
  rw [eval_scoped]
  unfold mapFailure
  rw [hscoped]

theorem eval_scoped_of_fails {span : Span}
    (hbase : interpreter n (.eval scope base) w₀ = .ok v w)
    (hfails : Fails cause w (Reflection.constantOf v name w)) :
    Fails cause w (interpreter (n + 1) (.eval scope ⟨span, .scoped base name⟩) w₀) := by
  have hscoped : Fails cause w ((interpreter n).scopedConstant scope span base name w₀) := by
    unfold Interp.scopedConstant
    rw [bind_of_ok hbase]
    exact hfails.mapFailure fun _ => rfl
  rw [eval_scoped]
  exact hscoped.mapFailure fun f => f.fault_tagFirst _ _

theorem eval_through_of_fails
    (hbase : Fails cause w (interpreter n (.eval scope base) w₀)) :
    Fails cause w (interpreter (n + path.length) (.eval scope (base.through path)) w₀) := by
  induction path generalizing base n with
  | nil => exact hbase
  | cons step path ih =>
    rw [List.length_cons, ← Nat.succ_add_eq_add_succ]
    apply ih
    rw [eval_scoped]
    exact (hbase.bind _).mapFailure fun f => f.fault_tagFirst _ _

/-- An expression finds what its names lead to. -/
theorem eval_through_of_reaches (hbase : interpreter n (.eval scope base) w₀ = .ok v w)
    (hreaches : w.heap.Reaches v (path.map (·.2)) u) :
    interpreter (n + path.length) (.eval scope (base.through path)) w₀ = .ok u w := by
  induction path generalizing base n v with
  | nil =>
    cases hreaches
    exact hbase
  | cons step path ih =>
    rw [List.length_cons, ← Nat.succ_add_eq_add_succ]
    cases hreaches with
    | cons hfound hrest =>
      exact ih (eval_scoped_of_ok hbase (Reflection.constantOf_of_some hfound)) hrest

/-- An expression fails for the reason that its names cannot be followed. -/
theorem eval_through_of_halts (hbase : interpreter n (.eval scope base) w₀ = .ok v w)
    (hhalts : w.heap.Halts v (path.map (·.2)) cause) :
    Fails cause w (interpreter (n + path.length) (.eval scope (base.through path)) w₀) := by
  induction path generalizing base n v with
  | nil => cases hhalts
  | cons step path ih =>
    rw [List.length_cons, ← Nat.succ_add_eq_add_succ]
    cases hhalts with
    | missing hmissing =>
      apply eval_through_of_fails
      exact eval_scoped_of_fails hbase (Reflection.fails_constantOf_of_none hmissing)
    | notAClass hv =>
      apply eval_through_of_fails
      exact eval_scoped_of_fails hbase (Reflection.fails_constantOf_of_not_klass hv _)
    | cons hfound hrest =>
      exact ih (eval_scoped_of_ok hbase (Reflection.constantOf_of_some hfound)) hrest

end Through

/-! ## Both ways -/

/-- A path of constants from a class or module is followed alike by `const_get` and by evaluating an
expression: both give the value that its names lead to, or both fail for the reason that they cannot
be followed. If some of them lead to a value that is no class and contains itself, neither comes to
an end, as both try to quote it. Neither changes the state. -/
theorem const_get_agrees_with_scoped (n : Nat) (scope : ScopeRef) (base : Node) (w₀ w : World)
    (c : ClassRef) (hbase : interpreter n (.eval scope base) w₀ = .ok (.klass c) w)
    (path : List (Span × String)) (hnames : ∀ name ∈ path.map (·.2), name ≠ "" ∧ ':' ∉ name.toList)
    (arg : Value) (harg : w.heap.name? arg = some ("::".intercalate (path.map (·.2))))
    (block : Option Callable) :
    let names := path.map (·.2)
    let got := Reflection.run .constantGet ⟨.klass c, [arg], block⟩ w
    let evaluated := interpreter (n + path.length) (.eval scope (base.through path)) w₀
    (∃ v, w.heap.Reaches (.klass c) names v ∧ got = .ok v w ∧ evaluated = .ok v w) ∨
      (∃ fault, w.heap.Halts (.klass c) names (some fault) ∧ Fails (some fault) w got ∧
        Fails (some fault) w evaluated) ∨
      w.heap.LeadsToEndless (.klass c) names ∧ got = .error .outOfFuel w ∧
        evaluated = .error .outOfFuel w := by
  intro names got evaluated
  have hgot : got = Reflection.followPath (.klass c) names w := by
    have hname : needName arg w = .ok ("::".intercalate names) w := needs_of_some harg
    refine (bind_of_ok hname _).trans ?_
    rw [Reflection.segments_intercalate hnames]
  rcases w.heap.reaches_or_halts (.klass c) names with ⟨v, hreaches⟩ | ⟨cause, hhalts⟩
  · left
    refine ⟨v, hreaches, ?_, eval_through_of_reaches hbase hreaches⟩
    rw [hgot, Reflection.followPath_of_reaches hreaches]
  · right
    have hgotten : Fails cause w got := hgot ▸ Reflection.fails_followPath_of_halts hhalts
    have hevaluated : Fails cause w evaluated := eval_through_of_halts hbase hhalts
    cases cause with
    | some fault => exact .inl ⟨fault, hhalts, hgotten, hevaluated⟩
    | none => exact .inr ⟨hhalts.leadsToEndless, hgotten.eq_outOfFuel, hevaluated.eq_outOfFuel⟩

/-- A constant that a core class lacks is missed by both. -/
theorem const_get_agrees_with_scoped_missing :
    let w : World := {}
    let path : List (Span × String) := [(default, "Float"), (default, "Missing")]
    let missing : Fault := .uninitializedConstant "Missing"
    Fails missing w
        (Reflection.run .constantGet ⟨.klass Core.object, [.symbol "Float::Missing"], none⟩ w) ∧
      Fails missing w
        (interpreter 3 (.eval Core.root (Node.through ⟨default, .constant "Object"⟩ path)) w) := by
  intro w path missing
  have hfloat : w.heap.findConstant Core.object "Float" = some (.klass Core.float) := rfl
  have hmissing : w.heap.findConstant Core.float "Missing" = none := rfl
  rcases const_get_agrees_with_scoped 1 Core.root ⟨default, .constant "Object"⟩ w w Core.object rfl
    path (by decide) (.symbol "Float::Missing") (by decide) none with
      ⟨v, hreaches, -⟩ | ⟨fault, hhalts, hgot, hevaluated⟩ | ⟨-, -, hevaluated⟩
  · cases hreaches with
    | cons hfound hrest =>
      cases hfloat.symm.trans hfound
      cases hrest with
      | cons hfound => cases hmissing.symm.trans hfound
  · cases hhalts with
    | missing hnone => cases hfloat.symm.trans hnone
    | notAClass hv => cases hv
    | cons hfound hrest =>
      cases hfloat.symm.trans hfound
      cases hrest with
      | missing => exact ⟨hgot, hevaluated⟩
      | notAClass hv => cases hv
      | cons hfound => cases hmissing.symm.trans hfound
  · cases hevaluated

/-- Neither way ends for a constant of an array that contains itself. -/
theorem const_get_of_endless :
    let w : World := { heap := { ({} : World).heap with lists := ⟨#[#[.array ⟨0⟩]]⟩ } }
    let w := { w with heap := w.heap.setConstant Core.object "X" (.array ⟨0⟩) }
    Reflection.run .constantGet ⟨.klass Core.object, [.symbol "X::Y"], none⟩ w =
        .error .outOfFuel w ∧
      interpreter 3 (.eval Core.root (Node.through ⟨default, .constant "Object"⟩
        [(default, "X"), (default, "Y")])) w = .error .outOfFuel w := by
  exact ⟨rfl, rfl⟩

end Spinel
