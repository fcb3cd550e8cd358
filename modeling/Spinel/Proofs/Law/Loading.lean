import Spinel.Proofs.Frame.Session
import Spinel.Proofs.Law.Shelf

/-!
# Sources are loaded once

`require` notes each path before it runs the source, and nothing ever takes a path off the list, so
a source that was handed over to be run is not handed over again. A session cannot tell its resolver
from one that gives each source away only once: an evaluator that takes a source from the resolver
when it hands it over (`draining`) does the same in every session (`Session.required_once`).
-/

namespace Spinel

open Run

variable {α β : Type}

/-! ## Conditions on what was loaded -/

/-- A path was loaded. -/
def Shelf.holding (path : String) : Shelf where
  AnyTree := True
  see _ resolve := resolve
  Tidy loaded _ _ := path ∈ loaded
  tidy_load _ h := List.mem_cons_of_mem _ h
  tidy_ask h := h
  Fine _ _ := True
  fine_fault _ _ _ := trivial
  fine_load _ _ := trivial

/-- Nothing was loaded twice, nothing is forgotten, and the resolver is the same. -/
def Shelf.since (earlier : List String) (resolver : Resolver) : Shelf where
  AnyTree := True
  see _ resolve := resolve
  Tidy loaded _ resolve := loaded.Nodup ∧ earlier <:+ loaded ∧ resolve = resolver
  tidy_load hfresh h :=
    ⟨List.nodup_cons.2 ⟨hfresh, h.1⟩, h.2.1.trans (List.suffix_cons _ _), h.2.2⟩
  tidy_ask h := h
  Fine _ _ := True
  fine_fault _ _ _ := trivial
  fine_load _ _ := trivial

namespace Shelf

variable {S : Shelf}

/-- A check that passes as long as the condition holds never raises the alarm. -/
theorem joins_watched (hS : S.IsPlain) (hL : S.law.Covers) {ok : World → Task → Prop}
    (hok : ∀ w task, S.IsTidy w → ok w task) (alarm : Run Value) (n : Nat) :
    S.law.Joins (interpreter n) (watched ok alarm n) := by
  induction n with
  | zero => exact fun _ => holds_outOfFuel
  | succ n ih =>
    intro task w hw
    have hpass : watched ok alarm (n + 1) task w = step n (watched ok alarm n) task w :=
      if_pos (hok w task hw)
    have hload : S.law.JoinsLoading (interpreter n) (watched ok alarm n) :=
      Interp.holds_require hL ih (coversLoading_law hS)
    have hstep : S.law.Holds (step n (interpreter n) task) (step n (watched ok alarm n) task) :=
      hL.holds_step ih (fun _ => hload) n
    obtain ⟨hsame, hgood⟩ := hstep w hw
    refine ⟨?_, hgood⟩
    rw [hS w] at hsame ⊢
    exact hpass.trans hsame

end Shelf

/-! ## A resolver that gives each source away once -/

/-- The resolver with the sources of some paths taken away. -/
def Resolver.without (r : Resolver) (paths : List String) : Resolver := fun asked path =>
  if path ∈ paths then .error { fault := .cannotLoad path } else r asked path

theorem Resolver.without_nil (r : Resolver) : r.without [] = r := by
  funext asked path
  exact if_neg List.not_mem_nil

theorem Resolver.without_cons (r : Resolver) (path : String) (paths : List String) :
    r.without (path :: paths) = (r.without paths).without [path] := by
  funext asked other
  unfold without
  by_cases heq : other = path
  · rw [if_pos (heq ▸ List.mem_cons_self), if_pos (List.mem_singleton.2 heq)]
  · rw [if_neg (mt List.mem_singleton.1 heq)]
    simp only [List.mem_cons, heq, false_or]

/-- The state with only those sources left in the resolver that were not loaded. -/
def World.drained (w : World) : World :=
  { w with host := { w.host with resolve := w.host.resolve.without w.loaded } }

/-- Load a source by its path, unless that was done, and take it from the resolver. -/
def Interp.requireTaking (interp : Interp) (path : String) : Run Bool := fun w =>
  if path ∈ w.loaded then .ok false w
  else
    match w.host.resolve w.asked path with
    | .error f => .error (.failed f) { w with asked := path :: w.asked }
    | .ok code =>
      (interp.runText code path >>= fun _ => pure true)
        { w with
          asked := path :: w.asked
          loaded := path :: w.loaded
          host := { w.host with resolve := w.host.resolve.without [path] } }

/-- The evaluator, with each source taken from the resolver when it is handed over. -/
def draining : Nat → Interp
  | 0, _ => Run.outOfFuel
  | n + 1, .invoke (.builtin (.kernel .require)) _ args _ => do
    return .bool (← (draining n).requireTaking (← Run.textArgument args))
  | n + 1, task => step n (draining n) task

/-- Sources that were loaded are gone. -/
def Shelf.emptying : Shelf where
  AnyTree := True
  see loaded resolve := resolve.without loaded
  Tidy _ _ _ := True
  tidy_load _ _ := trivial
  tidy_ask _ := trivial
  Fine _ _ := True
  fine_fault _ _ _ := trivial
  fine_load _ _ := trivial

theorem World.drained_cons (w : World) (path : String) :
    World.drained { w with loaded := path :: w.loaded } =
      { w.drained with
        loaded := path :: w.loaded
        host := { w.host with resolve := w.drained.host.resolve.without [path] } } := by
  unfold World.drained
  dsimp only
  rw [Resolver.without_cons]

namespace Shelf

theorem covers_emptying : emptying.law.Covers := covers_law trivial fun _ _ => trivial

theorem isGood_emptying (r : EStateM.Result Halt World α) : emptying.IsGood r := by
  cases r with
  | ok a w => trivial
  | error e w =>
    cases e with
    | failed f => exact ⟨trivial, trivial⟩
    | outOfFuel => trivial

theorem follows_requireTaking {I J : Interp} {path : String}
    (hrun : ∀ code, emptying.law.Holds (I.runText code path) (J.runText code path)) :
    emptying.law.Holds (I.require path) (J.requireTaking path) := by
  intro w _
  refine ⟨?_, isGood_emptying _⟩
  change J.requireTaking path w.drained = _
  rw [Interp.require_apply]
  unfold Interp.requireTaking
  change (if path ∈ w.loaded then _ else _) = _
  by_cases hmem : path ∈ w.loaded
  · rw [if_pos hmem, if_pos hmem]
    rfl
  · rw [if_neg hmem, if_neg hmem]
    have hresolve : w.drained.host.resolve w.drained.asked path = w.host.resolve w.asked path :=
      if_neg hmem
    rw [hresolve]
    cases w.host.resolve w.asked path with
    | error f => rfl
    | ok code =>
      have hload := Follows.bind (hrun code) fun _ => emptying.law.result true
      have hboth := (hload
        { w with asked := path :: w.asked, loaded := path :: w.loaded } trivial).1
      have hdrained := World.drained_cons { w with asked := path :: w.asked } path
      exact (congrArg _ hdrained.symm).trans hboth

theorem joins_draining (n : Nat) : emptying.law.Joins (interpreter n) (draining n) := by
  induction n with
  | zero => exact fun _ => holds_outOfFuel
  | succ n ih =>
    intro task
    by_cases hloads : task.Loads
    · cases task with
      | eval scope node => exact hloads.elim
      | invoke c receiver args block =>
        obtain rfl : c = .builtin (.kernel .require) := hloads
        refine (holds_textArgument args).bind fun path => ?_
        refine Law.Holds.bind ?_ fun loaded => holds_pure (Value.bool loaded)
        exact follows_requireTaking fun code => Interp.holds_runText covers_emptying ih code path
    · have hdraining : draining (n + 1) task = step n (draining n) task := by
        refine draining.eq_3 task n fun receiver args block htask => ?_
        exact hloads (htask ▸ rfl)
      have hstep := covers_emptying.holds_step ih (fun h => absurd h hloads) n
      exact hdraining ▸ hstep

end Shelf

/-! ## Sessions -/

/-- More paths may be noted, each once, and the host is the same. -/
def World.LoadsOn (w w' : World) : Prop :=
  w.loaded <:+ w'.loaded ∧ (w.loaded.Nodup → w'.loaded.Nodup) ∧ w'.host = w.host

theorem World.LoadsOn.of_same {w w' : World} (hloaded : w'.loaded = w.loaded)
    (hhost : w'.host = w.host) : w.LoadsOn w' :=
  ⟨hloaded ▸ List.suffix_refl _, fun h => hloaded ▸ h, hhost⟩

instance : World.Frame World.LoadsOn where
  refl _ := .of_same rfl rfl
  trans h h' := ⟨h.1.trans h'.1, fun hw => h'.2.1 (h.2.1 hw), h'.2.2.trans h.2.2⟩
  heap _ _ := .of_same rfl rfl
  output _ _ _ := .of_same rfl rfl
  drawn _ _ := .of_same rfl rfl
  asked _ _ := .of_same rfl rfl
  natives _ := .of_same rfl rfl
  sources _ := .of_same rfl rfl
  loaded _ path hpath := ⟨List.suffix_cons path _, fun hw => List.nodup_cons.2 ⟨hpath, hw⟩, rfl⟩
  inspecting h := h
  comparing h := h

/-- A `require` that says it loaded a source noted its path. -/
theorem noted_of_require_eq_true {n : Nat} {path : String} {w w' : World}
    (h : (interpreter n).require path w = .ok true w') : path ∉ w.loaded ∧ path ∈ w'.loaded := by
  by_cases hmem : path ∈ w.loaded
  · rw [(interpreter n).require_of_loaded hmem] at h
    cases h
  · refine ⟨hmem, ?_⟩
    rw [Interp.require_apply, if_neg hmem] at h
    cases hcode : w.host.resolve w.asked path with
    | error f =>
      rw [hcode] at h
      cases h
    | ok code =>
      rw [hcode] at h
      obtain ⟨v, w₁, hrun, hpure⟩ := bind_eq_ok h
      cases hpure
      have hon :
          World.LoadsOn { w with asked := path :: w.asked, loaded := path :: w.loaded } w' :=
        (Interp.obeys_runText (obeys_interpreter n) code path).of_ok hrun
      exact hon.1.subset List.mem_cons_self

namespace Session

/-- Run a program, with each source taken from the resolver when it is handed over. -/
def Program.drain : Program → Run Value
  | .required path => do return .bool (← (draining depth).requireTaking path)
  | p => p.run (draining depth)

/-- Do something with a session, with each source taken from the resolver when it is handed over. -/
def Action.drain : Action → Run Unit
  | .run p => do let _ ← p.drain
  | a => a.performBy (draining depth)

theorem Program.follows_drain (p : Program) :
    Shelf.emptying.law.Holds (p.run evaluator) p.drain := by
  have hi := Shelf.joins_draining depth
  have hL := Shelf.covers_emptying
  cases p with
  | required path =>
    refine Law.Holds.bind ?_ fun loaded => holds_pure (Value.bool loaded)
    exact Shelf.follows_requireTaking fun code => Interp.holds_runText hL hi code path
  | main code | text code label | stream s label | statements nodes =>
    exact Program.holds_run hL hi nofun

theorem Action.follows_drain (a : Action) : Shelf.emptying.law.Holds a.perform a.drain := by
  have hi := Shelf.joins_draining depth
  have hL := Shelf.covers_emptying
  rw [← a.performBy_evaluator]
  cases a with
  | run p => exact p.follows_drain.bind fun _ => holds_pure ()
  | call | text | inspect | respondsTo | global | setGlobal | constant | defineClass
  | defineInstanceMethod | defineClassMethod | newData | takeOutput =>
    exact Action.holds_performBy hL hi nofun

/-- The states of a session with a resolver that gives each source away once. -/
theorem foldl_drain (w : World) (as : List Action) :
    as.foldl (fun w a => a.drain.after w) w.drained = (afterActions w as).drained := by
  induction as generalizing w with
  | nil => rfl
  | cons a rest ih =>
    have hfirst : a.drain.after w.drained = (a.perform.after w).drained :=
      after_eq_of_relocate (a.follows_drain w trivial).1
    rw [List.foldl_cons, hfirst, ih]
    rfl

theorem drained_start (sourceName : String) (host : Host) :
    (start sourceName host).drained = start sourceName host := by
  unfold World.drained start
  dsimp only
  rw [Resolver.without_nil]

/-- A path is loaded at most once. `require` of a path that is noted is false and changes nothing.
One for which the resolver has no source fails with the failure of the resolver, which says that the
path cannot be loaded unless the host has its own way to fail, and changes nothing; only the
resolver may know that it was asked. Any other notes the path and then hands the source over, and
whenever a task is begun before that is done, a `require` of the same path is false. Only a
`require` of a path that was not noted is true, and it leaves it noted. In every session, whatever
it did and whatever failed, no path is noted twice, none is forgotten, not even inside a run, and
the session goes on as with a resolver from which each source is taken when it is handed over. -/
theorem required_once :
    (∀ (n : Nat) (path : String) (w : World),
      (path ∈ w.loaded → (interpreter n).require path w = .ok false w) ∧
      (∀ f, path ∉ w.loaded → w.host.resolve w.asked path = .error f →
        (interpreter n).require path w =
            .error (.failed f) { w with asked := path :: w.asked } ∧
          (w.host.resolve.FailsToLoad → f = { fault := .cannotLoad path })) ∧
      (∀ w', (interpreter n).require path w = .ok true w' → path ∉ w.loaded ∧ path ∈ w'.loaded) ∧
      ∀ code, path ∉ w.loaded → w.host.resolve w.asked path = .ok code →
        let noted := { w with asked := path :: w.asked, loaded := path :: w.loaded }
        (interpreter n).require path w =
            ((interpreter n).runText code path >>= fun _ => pure true) noted ∧
          ∀ alarm,
            (watched (fun w' _ => ∀ m, (interpreter m).require path w' = .ok false w') alarm
              n).runText code path noted = (interpreter n).runText code path noted) ∧
    ∀ (sourceName : String) (host : Host) (as bs : List Action),
      let w := afterActions (start sourceName host) as
      w.loaded.Nodup ∧ w.host = host ∧ w.loaded <:+ (afterActions w bs).loaded ∧
        (∀ (a : Action) (alarm : Run Value),
          a.performBy (watched (fun w' _ => w'.loaded.Nodup ∧ w.loaded <:+ w'.loaded ∧
            w'.host.resolve = host.resolve) alarm depth) w = a.perform w) ∧
        as.foldl (fun w a => a.drain.after w) (start sourceName host) = w.drained ∧
        (∀ p : Program, p.drain w.drained = relocate World.drained (p.run evaluator w)) ∧
        ∀ a : Action, a.drain w.drained = relocate World.drained (a.perform w) := by
  constructor
  · intro n path w
    refine ⟨fun hmem => ?_, fun f hmem hf => ⟨?_, fun hload => hload _ _ _ hf⟩,
      fun w' => noted_of_require_eq_true, fun code hmem hcode => ⟨?_, fun alarm => ?_⟩⟩
    · exact (interpreter n).require_of_loaded hmem
    · rw [Interp.require_apply, if_neg hmem, hf]
    · rw [Interp.require_apply, if_neg hmem, hcode]
    · have hagain : ∀ w' (_ : Task), (Shelf.holding path).IsTidy w' →
          ∀ m, (interpreter m).require path w' = .ok false w' :=
        fun w' _ hw' m => (interpreter m).require_of_loaded hw'
      have hcovers : (Shelf.holding path).law.Covers :=
        Shelf.covers_law trivial fun _ _ => trivial
      have hjoin := Shelf.joins_watched (fun _ => rfl) hcovers hagain alarm n
      have hrun := Interp.holds_runText hcovers hjoin code path
      exact Shelf.Follows.eq (fun _ => rfl) hrun List.mem_cons_self
  · intro sourceName host as bs w
    obtain ⟨-, hnodup, hhost⟩ : (start sourceName host).LoadsOn w := frame_afterActions _ as
    have hlater : w.LoadsOn (afterActions w bs) := frame_afterActions w bs
    refine ⟨hnodup List.nodup_nil, hhost, hlater.1, fun a alarm => ?_, ?_, fun p => ?_,
      fun a => ?_⟩
    · have hcovers : (Shelf.since w.loaded host.resolve).law.Covers :=
        Shelf.covers_law trivial fun _ _ => trivial
      have hjoin := Shelf.joins_watched (S := .since w.loaded host.resolve) (fun _ => rfl) hcovers
        (fun _ _ hw' => hw') alarm depth
      have hload := Interp.holds_require hcovers hjoin (Shelf.coversLoading_law fun _ => rfl)
      have hperform := a.holds_performBy hcovers hjoin fun path _ => hload path
      rw [← a.performBy_evaluator]
      exact Shelf.Follows.eq (fun _ => rfl) hperform
        ⟨hnodup List.nodup_nil, List.suffix_refl _, congrArg Host.resolve hhost⟩
    · rw [← drained_start, foldl_drain]
    · exact (p.follows_drain w trivial).1
    · exact (a.follows_drain w trivial).1

/-- Two sources that require each other, an empty source, and a path without a source. -/
theorem required_once_mutual :
    let resolve : Resolver :=
      .ofTable [("a", "require \"b\""), ("b", "require \"a\""), ("d", "")]
    let w := start "main" { resolve }
    let noted := { w with asked := ["a"], loaded := ["a"] }
    ("a" ∉ w.loaded ∧ w.host.resolve w.asked "a" = .ok "require \"b\"" ∧
      evaluator.require "a" w =
          (evaluator.runText "require \"b\"" "a" >>= fun _ => pure true) noted ∧
        ∀ alarm,
          (watched (fun w' _ => ∀ m, (interpreter m).require "a" w' = .ok false w') alarm
            depth).runText "require \"b\"" "a" noted =
              evaluator.runText "require \"b\"" "a" noted) ∧
      ("c" ∉ w.loaded ∧ w.host.resolve.FailsToLoad ∧
        evaluator.require "c" w =
          .error (.failed { fault := .cannotLoad "c" }) { w with asked := ["c"] }) ∧
      ("a" ∈ noted.loaded ∧ evaluator.require "a" noted = .ok false noted) ∧
      (∃ w', evaluator.require "d" w = .ok true w' ∧ "d" ∉ w.loaded ∧ "d" ∈ w'.loaded) ∧
      (afterActions w [.run (.required "a"), .run (.required "b")]).loaded.Nodup := by
  intro resolve w noted
  have ha : "a" ∉ w.loaded := List.not_mem_nil
  have hc : "c" ∉ w.loaded := List.not_mem_nil
  have hfound : w.host.resolve w.asked "a" = .ok "require \"b\"" := rfl
  have hfails : w.host.resolve.FailsToLoad := Resolver.failsToLoad_calling _
  have hnoted : "a" ∈ noted.loaded := List.mem_cons_self
  have hload := (required_once.1 depth "a" w).2.2.2 _ ha hfound
  have hfail := (required_once.1 depth "c" w).2.1 { fault := .cannotLoad "c" } hc rfl
  have hagain := (required_once.1 depth "a" noted).1 hnoted
  have hempty : evaluator.require "d" w =
      .ok true { w with asked := ["d"], loaded := ["d"], sources := 1 } := rfl
  have htrue := (required_once.1 depth "d" w).2.2.1 _ hempty
  refine ⟨⟨ha, hfound, hload⟩, ⟨hc, hfails, hfail.1⟩, ⟨hnoted, hagain⟩, ⟨_, hempty, htrue⟩, ?_⟩
  exact (required_once.2 "main" { resolve } [.run (.required "a"), .run (.required "b")] []).1

end Session

end Spinel
