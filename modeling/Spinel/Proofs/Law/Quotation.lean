import Spinel.Proofs.Law.Shelf
import Spinel.Proofs.Source.Reader

/-!
# Reports quote their source

The report of a failure is written when the failure leaves a source, and quotes lines of that source
if it is labelled with the label of the source. The places of a failure do not say which source they
are in, so a line of the wrong source is quoted if the failure passed the body of a method or block
of another one on the way (`Session.line_of_another_source`). Unless a failure does that, each line
in a report is the line of its place, in the text that the place was read from
(`Session.reports_quote_their_source`): an evaluator that stops such failures (`vetted`) shows it.
-/

namespace Spinel

open Run

variable {α β : Type}

/-! ## What is written in a source -/

/-- A node is one of some nodes, or inside one of them. -/
inductive Node.Within (nodes : List Node) : Node → Prop
  | top {node : Node} (h : node ∈ nodes) : Within nodes node
  | inside {parent node : Node} (hparent : Within nodes parent)
      (h : node ∈ parent.form.children) : Within nodes node

/-- The block that a form writes. -/
def Form.block? : Form → Option Block
  | .lambda b | .forEach _ b | .call _ _ _ (.literal b) => some b
  | _ => none

/-- A method or block is written inside some nodes. -/
def Callable.WrittenIn (nodes : List Node) : Callable → Prop
  | .method m _ => ∃ node target, Node.Within nodes node ∧ node.form = .define target m
  | .block b _ => ∃ node, Node.Within nodes node ∧ node.form.block? = some b
  | .builtin _ | .native .. => True

/-- The nodes of what was read. -/
def Grammar.Parsed.nodes : Grammar.Parsed → List Node
  | .program nodes => nodes
  | .syntaxError _ | .exhausted => []

theorem Node.within_body_of_define {nodes : List Node} {node : Node} {target : Option Node}
    {m : Method} (h : Node.Within nodes node) (hform : node.form = .define target m) :
    ∀ inner ∈ m.body, Node.Within nodes inner := by
  intro inner hinner
  refine .inside h ?_
  rw [hform]
  exact List.mem_append_right _ hinner

theorem Node.within_body_of_block {nodes : List Node} {node : Node} {b : Block}
    (h : Node.Within nodes node) (hform : node.form.block? = some b) :
    ∀ inner ∈ b.body, Node.Within nodes inner := by
  intro inner hinner
  refine .inside h ?_
  unfold Form.block? at hform
  split at hform
  all_goals grind [Form.children, BlockArg.children]

/-- A place is that of a node among some nodes or inside them. -/
def PlaceIn (nodes : List Node) (span : Span) : Prop :=
  ∃ node, Node.Within nodes node ∧ node.span = span

/-- All places of a failure are in what was read. -/
def Failure.LiesIn (f : Failure) : Grammar.Parsed → Prop
  | .program nodes => ∀ place ∈ f.trace, PlaceIn nodes place.1
  | .syntaxError e => f.trace = [(.point e.position, .parsing)]
  | .exhausted => False

/-! ## Reports -/

/-- A report of a failure shows no lines, or those of a source in which all places are that it
names. The failure may have passed more places since. -/
inductive Failure.Shown (known : String → String → Prop) (f : Failure) (report : String) : Prop
  | plain (early : Failure) (hfault : early.fault = f.fault) (htrace : early.trace <+: f.trace)
      (hreport : report = early.reportText none)
  | quoted (early : Failure) (label code : String) (serial : Nat) (hknown : known label code)
      (hfault : early.fault = f.fault) (htrace : early.trace <+: f.trace)
      (hlies : early.LiesIn (Grammar.parse ⟨label, serial⟩ (.ofText code)).1)
      (hreport : report = early.reportText (some code))

/-- Of the paths that the resolver was asked for, one was answered with the text. -/
def Resolver.Gave (resolve : Resolver) (asked : List String) (path code : String) : Prop :=
  ∃ before, path :: before <:+ asked ∧ resolve before path = .ok code

namespace Failure

variable {known known' : String → String → Prop} {f g : Failure} {report : String}

theorem Shown.imp (h : f.Shown known report) (hknown : ∀ l c, known l c → known' l c) :
    f.Shown known' report := by
  cases h with
  | plain early hfault htrace hreport => exact .plain early hfault htrace hreport
  | quoted early label code serial hk hfault htrace hlies hreport =>
    exact .quoted early label code serial (hknown _ _ hk) hfault htrace hlies hreport

theorem Shown.later (h : f.Shown known report) (hfault : g.fault = f.fault)
    (htrace : f.trace <+: g.trace) : g.Shown known report := by
  cases h with
  | plain early hfault' htrace' hreport =>
    exact .plain early (hfault'.trans hfault.symm) (htrace'.trans htrace) hreport
  | quoted early label code serial hk hfault' htrace' hlies hreport =>
    exact .quoted early label code serial hk (hfault'.trans hfault.symm) (htrace'.trans htrace)
      hlies hreport

/-- The sources that reports may quote: the one that is run, and those that the resolver gave. -/
def Quotable (resolve : Resolver) (asked : List String) (label code : String) :
    String → String → Prop :=
  fun label' code' => (label' = label ∧ code' = code) ∨ resolve.Gave asked label' code'

/-- A failure that would be quoted from a source with the label if it left it now. -/
def QuotedFrom (f : Failure) (label : String) : Prop :=
  f.report = none ∧ (f.file = none ∨ f.file = some label)

instance (f : Failure) (label : String) : Decidable (f.QuotedFrom label) :=
  inferInstanceAs (Decidable (_ ∧ _))

/-- Reports that were written show the right lines of sources that the resolver gave, and if one is
going to be written for a source with the label, all places are among the given ones. -/
structure Sound (resolve : Resolver) (asked : List String) (label : String) (Here : Span → Prop)
    (f : Failure) : Prop where
  reported : ∀ report, f.report = some report → f.Shown (resolve.Gave asked) report
  places : f.QuotedFrom label → ∀ place ∈ f.trace, Here place.1

variable {resolve : Resolver} {asked : List String} {label : String} {Here : Span → Prop}

theorem sound_of_fault (fault : Fault) : Sound resolve asked label Here { fault } :=
  ⟨nofun, fun _ _ h => absurd h List.not_mem_nil⟩

theorem Sound.tag (h : f.Sound resolve asked label Here) {span : Span} (hspan : Here span)
    (action : Action) : (f.tag span action).Sound resolve asked label Here := by
  refine ⟨fun report hreport => ?_, fun hquoted place hplace => ?_⟩
  · exact (h.reported report hreport).later rfl (List.prefix_append _ _)
  · obtain hold | hnew := List.mem_append.1 hplace
    · exact h.places hquoted place hold
    · cases List.mem_singleton.1 hnew
      exact hspan

theorem Sound.tagFirst (h : f.Sound resolve asked label Here) {span : Span} (hspan : Here span)
    (action : Action) : (f.tagFirst span action).Sound resolve asked label Here := by
  unfold Failure.tagFirst
  split
  · exact h.tag hspan action
  · exact h

theorem Sound.inFile (h : f.Sound resolve asked label Here) (label' : String) :
    (f.inFile label').Sound resolve asked label Here := by
  refine ⟨fun report hreport => ?_, fun hquoted place hplace => ?_⟩
  · exact (h.reported report hreport).later rfl (List.prefix_refl _)
  · refine h.places ⟨hquoted.1, ?_⟩ place hplace
    have hfile : some (f.file.getD label') = none ∨ some (f.file.getD label') = some label :=
      hquoted.2
    cases hf : f.file with
    | none => exact .inl rfl
    | some inner =>
      rw [hf] at hfile
      exact hfile.imp nofun id

/-- The report that is written when a failure leaves a source. -/
theorem Sound.leaving {code : String} {nodes : List Node} {serial : Nat}
    (hparse : (Grammar.parse ⟨label, serial⟩ (.ofText code)).1 = .program nodes)
    (h : f.Sound resolve asked label (PlaceIn nodes)) :
    ∃ report, (f.leaving label code).report = some report ∧
      (f.leaving label code).Shown (Quotable resolve asked label code) report := by
  refine ⟨_, rfl, ?_⟩
  cases hreport : f.report with
  | some report =>
    have hsame : (f.inFile label).report = some report := hreport
    rw [hsame]
    have hshown : f.Shown (Quotable resolve asked label code) report :=
      (h.reported report hreport).imp fun _ _ => .inr
    exact hshown.later rfl (List.prefix_refl _)
  | none =>
    have hnone : (f.inFile label).report = none := hreport
    rw [hnone]
    by_cases hfile : (f.inFile label).file = some label
    · rw [if_pos hfile]
      refine .quoted (f.inFile label) label code serial (.inl ⟨rfl, rfl⟩) rfl (List.prefix_refl _)
        ?_ rfl
      rw [hparse]
      exact (h.inFile label).places ⟨hnone, .inr hfile⟩
    · rw [if_neg hfile]
      exact .plain (f.inFile label) rfl (List.prefix_refl _) rfl

end Failure

/-! ## The law of sound failures -/

/-- The resolver is the same and was asked for more, and failures are sound. -/
def Shelf.sound {resolve : Resolver} (hload : resolve.FailsToLoad) (earlier : List String)
    (label : String) (Here : Span → Prop) : Shelf where
  AnyTree := True
  see _ resolve := resolve
  Tidy _ asked resolve' := resolve' = resolve ∧ earlier <:+ asked
  tidy_load _ h := h
  tidy_ask h := ⟨h.1, h.2.trans (List.suffix_cons _ _)⟩
  Fine asked f := f.Sound resolve asked label Here
  fine_fault _ fault _ := Failure.sound_of_fault fault
  fine_load h hf := hload _ _ _ (h.1 ▸ hf) ▸ Failure.sound_of_fault _

namespace Shelf

variable {resolve : Resolver} {hload : resolve.FailsToLoad} {earlier : List String} {label : String}
  {Here : Span → Prop}

theorem isPlain_sound : (sound hload earlier label Here).IsPlain := fun _ => rfl

theorem tags_sound {span : Span} (h : Here span) :
    (sound hload earlier label Here).law.Tags span :=
  fun action _ _ hf => hf.tag h action

theorem allows_inFile (label' : String) :
    (sound hload earlier label Here).law.Allows (·.inFile label') :=
  fun _ _ hf => hf.inFile label'

end Shelf

/-! ## An evaluator that stops failures on their way through other sources -/

/-- A source that is being run. -/
structure Home where
  label : String
  nodes : List Node

namespace Home

/-- The source of a text. -/
def reading (label : String) (serial : Nat) (code : String) : Home :=
  ⟨label, (Grammar.parse ⟨label, serial⟩ (.ofText code)).1.nodes⟩

/-- The source that a `require` is going to load. -/
def required (path : String) (w : World) : Home :=
  reading path w.sources ((w.host.resolve w.asked path).toOption.getD "")

/-- Stop a failure that would be quoted from the source when it leaves a method or block that is not
written there. -/
noncomputable def check (home : Home) (c : Callable) (x : Run Value) : Run Value := fun w =>
  match x w with
  | .ok v w' => .ok v w'
  | .error .outOfFuel w' => .error .outOfFuel w'
  | .error (.failed f) w' =>
    if f.QuotedFrom home.label then
      open Classical in
      if c.WrittenIn home.nodes then .error (.failed f) w' else .error .outOfFuel w'
    else .error (.failed f) w'

end Home

/-- Load a source by its path with an evaluator for that source. -/
def requireAt (V : Home → Interp) (path : String) : Run Bool := fun w =>
  (V (.required path w)).require path w

/-- The evaluator for a source, stopped when a failure that would be quoted from the source leaves a
method or block of another one. -/
noncomputable def vetted : Nat → Home → Interp
  | 0, _, _ => Run.outOfFuel
  | n + 1, home, .eval scope node => step n (vetted n home) (.eval scope node)
  | n + 1, home, .invoke c receiver args block =>
    match c with
    | .method .. | .block .. =>
      home.check c (step n (vetted n home) (.invoke c receiver args block))
    | .builtin (.kernel .require) => do
      return .bool (← requireAt (vetted n) (← Run.textArgument args))
    | _ => step n (vetted n home) (.invoke c receiver args block)

/-- For a family of evaluators: in the run of a source, failures are sound for it, as far as they
come from its nodes or from calls. -/
structure FailSoundly {resolve : Resolver} (hload : resolve.FailsToLoad) (V : Home → Interp) :
    Prop where
  anywhere : ∀ home earlier label task,
    (Shelf.sound hload earlier label fun _ => True).law.Keeps (V home task)
  calls : ∀ (home : Home) earlier,
    (Shelf.sound hload earlier home.label (PlaceIn home.nodes)).law.JoinsCalls (V home) (V home)
  nodes : ∀ (home : Home) earlier node, Node.Within home.nodes node →
    (Shelf.sound hload earlier home.label (PlaceIn home.nodes)).law.JoinsAt (V home) (V home) node

/-- Run what was read from a source. What fails in it gets its report. -/
def Interp.runParsed (interp : Interp) (label code : String) : Grammar.Parsed → Run Value
  | .program nodes => (interp.body Core.root .nil nodes).mapFailure (·.leaving label code)
  | .syntaxError e => throw (.failed ((Failure.ofSyntaxError e).leaving label code))
  | .exhausted => Run.outOfFuel

/-- A source that is given as a text is read under the next number and run. -/
theorem Interp.runText_apply (interp : Interp) (code label : String) (w : World) :
    interp.runText code label w =
      interp.runParsed label code (Grammar.parse ⟨label, w.sources⟩ (.ofText code)).1
        { w with sources := w.sources + 1 } := by
  have hcode := (Grammar.parse_ofReader ⟨label, w.sources⟩ code).2.1
  have hnext : Run.newSource label w =
      .ok ⟨label, w.sources⟩ { w with sources := w.sources + 1 } := rfl
  unfold Interp.runText Interp.runStream
  rw [bind_of_ok hnext]
  generalize Grammar.parse ⟨label, w.sources⟩ (.ofText code) = read at hcode ⊢
  obtain ⟨parsed, text⟩ := read
  obtain rfl : text = code := hcode
  cases parsed <;> rfl

theorem Run.of_mapFailure_eq_failed {x : Run α} {change : Failure → Failure} {w w' : World}
    {f : Failure} (h : x.mapFailure change w = .error (.failed f) w') :
    ∃ g, x w = .error (.failed g) w' ∧ f = change g := by
  unfold Run.mapFailure at h
  cases hx : x w with
  | ok a w₁ =>
    rw [hx] at h
    cases h
  | error e w₁ =>
    rw [hx] at h
    cases e with
    | failed g =>
      cases h
      exact ⟨g, rfl, rfl⟩
    | outOfFuel => cases h

namespace FailSoundly

variable {resolve : Resolver} {hload : resolve.FailsToLoad} {V : Home → Interp}

/-- The top level of a source is run soundly. -/
theorem isGood_body (hV : FailSoundly hload V) (home : Home) {w : World}
    (hw : w.host.resolve = resolve) :
    (Shelf.sound hload w.asked home.label (PlaceIn home.nodes)).IsGood
      ((V home).body Core.root .nil home.nodes w) :=
  ((Interp.holds_body Core.root .nil fun node hnode => hV.nodes home w.asked node (.top hnode)) w
    ⟨hw, List.suffix_refl _⟩).2

theorem tidy_after_runText (hV : FailSoundly hload V) (code label : String) {w : World}
    (hw : w.host.resolve = resolve) :
    let w' := ((V (.reading label w.sources code)).runText code label).after w
    w'.host.resolve = resolve ∧ w.asked <:+ w'.asked := by
  have hbody := hV.isGood_body (.reading label w.sources code)
    (w := { w with sources := w.sources + 1 }) hw
  have htidy := (Shelf.isGood_iff.1 hbody).1
  unfold Home.reading at htidy ⊢
  unfold Run.after
  rw [Interp.runText_apply]
  cases hparse : (Grammar.parse ⟨label, w.sources⟩ (.ofText code)).1 with
  | exhausted | syntaxError e => exact ⟨hw, List.suffix_refl _⟩
  | program nodes =>
    rw [hparse, ← after_mapFailure _ (·.leaving label code)] at htidy
    exact htidy

/-- A failure that leaves a source has a report that shows the right lines. -/
theorem report_of_runText (hV : FailSoundly hload V) {code label : String} {w w' : World}
    {f : Failure} (hw : w.host.resolve = resolve)
    (hfail : (V (.reading label w.sources code)).runText code label w = .error (.failed f) w') :
    ∃ report, f.report = some report ∧
      f.Shown (Failure.Quotable resolve w'.asked label code) report := by
  have hbody := hV.isGood_body (.reading label w.sources code)
    (w := { w with sources := w.sources + 1 }) hw
  rw [Interp.runText_apply] at hfail
  unfold Home.reading at hbody hfail
  cases hparse : (Grammar.parse ⟨label, w.sources⟩ (.ofText code)).1 with
  | exhausted =>
    rw [hparse] at hfail
    cases hfail
  | syntaxError e =>
    rw [hparse] at hfail
    cases hfail
    refine ⟨_, rfl, .quoted ((Failure.ofSyntaxError e).inFile label) label code w.sources
      (.inl ⟨rfl, rfl⟩) rfl (List.prefix_refl _) ?_ ?_⟩
    · rw [hparse]
      rfl
    · exact congrArg ((Failure.ofSyntaxError e).inFile label).reportText (if_pos rfl)
  | program nodes =>
    rw [hparse] at hfail hbody
    obtain ⟨g, hfails, rfl⟩ := of_mapFailure_eq_failed hfail
    exact ((Shelf.isGood_iff.1 hbody).2 g w' hfails).leaving hparse

/-- The failures of loading a source have reports that show the right lines, or no places yet. -/
theorem keeps_requireAt (hV : FailSoundly hload V) (earlier : List String) (label : String)
    (Here : Span → Prop) (path : String) :
    (Shelf.sound hload earlier label Here).law.Keeps (requireAt V path) := by
  refine Shelf.follows_self Shelf.isPlain_sound fun w hw => ?_
  unfold requireAt
  rw [Interp.require_apply]
  by_cases hmem : path ∈ w.loaded
  · rw [if_pos hmem]
    exact hw
  · rw [if_neg hmem]
    cases hcode : w.host.resolve w.asked path with
    | error f =>
      exact ⟨(Shelf.sound hload earlier label Here).tidy_ask hw,
        (Shelf.sound hload earlier label Here).fine_load hw hcode⟩
    | ok code =>
      have hhome : Home.required path w = .reading path w.sources code := by
        unfold Home.required
        rw [hcode]
        rfl
      rw [hhome]
      -- The path is the last one asked for when the source begins to run, and stays on record.
      let asking := { w with asked := path :: w.asked, loaded := path :: w.loaded }
      have hafter := hV.tidy_after_runText code path (w := asking) hw.1
      have hgave : ∀ asked, path :: w.asked <:+ asked → resolve.Gave asked path code :=
        fun asked hasked => ⟨w.asked, hasked, hw.1 ▸ hcode⟩
      refine Shelf.IsGood.bind_pure (Shelf.isGood_iff.2 ⟨?_, fun f w' hfail => ?_⟩) true
      · exact ⟨hafter.1, hw.2.trans ((List.suffix_cons _ _).trans hafter.2)⟩
      · obtain ⟨report, hreport, hshown⟩ := hV.report_of_runText (w := asking) hw.1 hfail
        have hasked : path :: w.asked <:+ w'.asked := by
          have hsuffix := hafter.2
          unfold Run.after at hsuffix
          rwa [hfail] at hsuffix
        refine ⟨fun report' hreport' => ?_, fun hquoted => ?_⟩
        · obtain rfl : report = report' := Option.some.inj (hreport.symm.trans hreport')
          refine hshown.imp ?_
          rintro l c (⟨rfl, rfl⟩ | hc)
          · exact hgave _ hasked
          · exact hc
        · exact absurd (hreport.symm.trans hquoted.1) nofun

end FailSoundly

section Checks

variable {resolve : Resolver} {hload : resolve.FailsToLoad} {earlier : List String} {home : Home}

/-- A check keeps the failures of a part, and if the part is not written in the source, those that
are left are sound for the source. -/
theorem Home.keeps_check {c : Callable} {x : Run Value} {label : String} {Here : Span → Prop}
    (hx : (Shelf.sound hload earlier label Here).law.Keeps x) :
    (Shelf.sound hload earlier label Here).law.Keeps (home.check c x) := by
  refine Shelf.follows_self Shelf.isPlain_sound fun w hw => ?_
  have hgood := (hx w hw).2
  unfold Home.check
  cases hxw : x w with
  | ok v w' =>
    rw [hxw] at hgood
    exact hgood
  | error e w' =>
    rw [hxw] at hgood
    cases e with
    | outOfFuel => exact hgood
    | failed f =>
      dsimp only
      split
      · split
        · exact hgood
        · exact hgood.1
      · exact hgood

theorem Home.keeps_check_of_not_written {c : Callable} {x : Run Value}
    (hc : ¬c.WrittenIn home.nodes)
    (hx : (Shelf.sound hload earlier home.label fun _ => True).law.Keeps x) :
    (Shelf.sound hload earlier home.label (PlaceIn home.nodes)).law.Keeps (home.check c x) := by
  refine Shelf.follows_self Shelf.isPlain_sound fun w hw => ?_
  have hgood := (hx w hw).2
  unfold Home.check
  cases hxw : x w with
  | ok v w' =>
    rw [hxw] at hgood
    exact hgood
  | error e w' =>
    rw [hxw] at hgood
    cases e with
    | outOfFuel => exact hgood
    | failed f =>
      dsimp only
      by_cases hquoted : f.QuotedFrom home.label
      · rw [if_pos hquoted, if_neg hc]
        exact hgood.1
      · rw [if_neg hquoted]
        exact ⟨hgood.1, hgood.2.reported, fun h => absurd h hquoted⟩

/-- The places in a source, and the parts of its nodes. -/
theorem serves_of_within {I : Interp} {node : Node}
    (hI : ∀ node, Node.Within home.nodes node →
      (Shelf.sound hload earlier home.label (PlaceIn home.nodes)).law.JoinsAt I I node)
    (hnode : Node.Within home.nodes node) :
    (Shelf.sound hload earlier home.label (PlaceIn home.nodes)).law.Serves I I node where
  shape := .inl trivial
  here := Shelf.tags_sound ⟨node, hnode, rfl⟩
  places child hchild := Shelf.tags_sound ⟨child, .inside hnode hchild, rfl⟩
  parts child hchild := hI child (.inside hnode hchild)
  deeper _ hchild part hpart := hI part (.inside (.inside hnode hchild) hpart)

end Checks

theorem vetted_native (n : Nat) (home : Home) (serial : Nat) (m : Native) (receiver : Value)
    (args : List Value) (block : Option Callable) :
    vetted (n + 1) home (.invoke (.native serial m) receiver args block) =
      step n (vetted n home) (.invoke (.native serial m) receiver args block) := rfl

theorem vetted_builtin {b : Builtin} (hb : b ≠ .kernel .require) (n : Nat) (home : Home)
    (receiver : Value) (args : List Value) (block : Option Callable) :
    vetted (n + 1) home (.invoke (.builtin b) receiver args block) =
      step n (vetted n home) (.invoke (.builtin b) receiver args block) := by
  cases b with
  | kernel m =>
    cases m with
    | require => exact absurd rfl hb
    | puts | print | «show» | random | makeProc => rfl
  | _ => rfl

namespace FailSoundly

variable {resolve : Resolver} {hload : resolve.FailsToLoad} {n : Nat}

/-- A step, without regard to places: all that is known inside methods of other sources. -/
theorem keeps_step (h : FailSoundly hload (vetted n)) (home : Home) (earlier : List String)
    (label : String) {task : Task} (hloads : ¬task.Loads) :
    (Shelf.sound hload earlier label fun _ => True).law.Keeps (step n (vetted n home) task) := by
  have hat : ∀ node, (Shelf.sound hload earlier label fun _ => True).law.JoinsAt (vetted n home)
      (vetted n home) node := fun node scope => h.anywhere home earlier label _
  refine holds_step (fun _ _ _ _ => h.anywhere home earlier label _) ?_
    (fun hl => absurd hl hloads) n
  cases task with
  | eval scope node =>
    exact ⟨⟨.inl trivial, Shelf.tags_sound trivial, fun _ _ => Shelf.tags_sound trivial,
      fun _ _ => hat _, fun _ _ _ _ => hat _⟩, fun _ f hf => hf.tagFirst trivial _⟩
  | invoke c receiver args block =>
    cases c with
    | method m captured | block b captured => exact ⟨Shelf.allows_inFile _, fun _ _ => hat _⟩
    | builtin b | native serial m => trivial

/-- A call in the run of a source, of something that is written there or has no body. -/
theorem keeps_step_of_written (h : FailSoundly hload (vetted n)) {home : Home} {c : Callable}
    (hc : c.WrittenIn home.nodes) (hloads : ¬c.Loads) (earlier : List String) (receiver : Value)
    (args : List Value) (block : Option Callable) :
    (Shelf.sound hload earlier home.label (PlaceIn home.nodes)).law.Keeps
      (step n (vetted n home) (.invoke c receiver args block)) := by
  have hno : ¬(Task.invoke c receiver args block).Loads := hloads
  refine holds_step (h.calls home earlier) ?_ (fun hl => absurd hl hno) n
  cases c with
  | method m captured =>
    obtain ⟨node, target, hnode, hform⟩ := hc
    exact ⟨Shelf.allows_inFile _, fun inner hinner =>
      h.nodes home earlier inner (Node.within_body_of_define hnode hform inner hinner)⟩
  | block b captured =>
    obtain ⟨node, hnode, hform⟩ := hc
    exact ⟨Shelf.allows_inFile _, fun inner hinner =>
      h.nodes home earlier inner (Node.within_body_of_block hnode hform inner hinner)⟩
  | builtin b | native serial m => trivial

theorem keeps_load (h : FailSoundly hload (vetted n)) (earlier : List String) (label : String)
    (Here : Span → Prop) (home : Home) (receiver : Value) (args : List Value)
    (block : Option Callable) :
    (Shelf.sound hload earlier label Here).law.Keeps
      (vetted (n + 1) home (.invoke (.builtin (.kernel .require)) receiver args block)) :=
  (holds_textArgument args).bind fun path =>
    (h.keeps_requireAt earlier label Here path).bind fun _ => holds_pure _

end FailSoundly

/-- The failures that the vetted evaluator lets pass are sound for the source that is run. -/
theorem failSoundly_vetted {resolve : Resolver} (hload : resolve.FailsToLoad) (n : Nat) :
    FailSoundly hload (vetted n) := by
  induction n with
  | zero =>
    exact ⟨fun _ _ _ _ => holds_outOfFuel, fun _ _ _ _ _ _ => holds_outOfFuel,
      fun _ _ _ _ _ => holds_outOfFuel⟩
  | succ n ih =>
    refine ⟨fun home earlier label task => ?_, fun home earlier c receiver args block => ?_,
      fun home earlier node hnode scope => ?_⟩
    · cases task with
      | eval scope node => exact ih.keeps_step home earlier label id
      | invoke c receiver args block =>
        cases c with
        | method m captured | block b captured =>
          exact Home.keeps_check (ih.keeps_step home earlier label nofun)
        | native serial m =>
          rw [vetted_native]
          exact ih.keeps_step home earlier label nofun
        | builtin b =>
          by_cases hb : b = .kernel .require
          · subst hb
            exact ih.keeps_load earlier label _ home receiver args block
          · rw [vetted_builtin hb]
            exact ih.keeps_step home earlier label fun h => hb (Callable.builtin.inj h)
    · cases c with
      | method m captured =>
        by_cases hc : (Callable.method m captured).WrittenIn home.nodes
        · exact Home.keeps_check (ih.keeps_step_of_written hc nofun earlier receiver args block)
        · exact Home.keeps_check_of_not_written hc (ih.keeps_step home earlier home.label nofun)
      | block b captured =>
        by_cases hc : (Callable.block b captured).WrittenIn home.nodes
        · exact Home.keeps_check (ih.keeps_step_of_written hc nofun earlier receiver args block)
        · exact Home.keeps_check_of_not_written hc (ih.keeps_step home earlier home.label nofun)
      | native serial m =>
        rw [vetted_native]
        exact ih.keeps_step_of_written (c := .native serial m) trivial nofun earlier receiver args
          block
      | builtin b =>
        by_cases hb : b = .kernel .require
        · subst hb
          exact ih.keeps_load earlier home.label _ home receiver args block
        · rw [vetted_builtin hb]
          exact ih.keeps_step_of_written (c := .builtin b) trivial
            (fun h => hb (Callable.builtin.inj h)) earlier receiver args block
    · have htask : (Task.eval scope node).Served
          (Shelf.sound hload earlier home.label (PlaceIn home.nodes)).law (vetted n home)
          (vetted n home) :=
        ⟨serves_of_within (ih.nodes home earlier) hnode,
          fun _ f hf => hf.tagFirst ⟨node, hnode, rfl⟩ _⟩
      exact holds_step (ih.calls home earlier) htask nofun n

/-! ## Evaluators that stop early -/

/-- The second computation is stopped, or does what the first does. -/
def Run.StopsOrSame (x y : Run α) : Prop :=
  ∀ w, (∃ w', y w = .error .outOfFuel w') ∨ y w = x w

namespace Run.StopsOrSame

theorem bind {x y : Run α} {f g : α → Run β} (hx : StopsOrSame x y)
    (hf : ∀ a, StopsOrSame (f a) (g a)) : StopsOrSame (x >>= f) (y >>= g) := by
  intro w
  obtain ⟨w', hstop⟩ | hsame := hx w
  · exact .inl ⟨w', bind_of_error hstop g⟩
  · rw [bind_apply, bind_apply, hsame]
    cases x w with
    | ok a w' => exact hf a w'
    | error e w' => exact .inr rfl

theorem mapFailure {x y : Run α} (hx : StopsOrSame x y) (change : Failure → Failure) :
    StopsOrSame (x.mapFailure change) (y.mapFailure change) := by
  intro w
  unfold Run.mapFailure
  obtain ⟨w', hstop⟩ | hsame := hx w
  · rw [hstop]
    exact .inl ⟨w', rfl⟩
  · rw [hsame]
    exact .inr rfl

theorem relocate {x y : Run α} (hx : StopsOrSame x y) (f : World → World) (w : World) :
    (∃ w', Run.relocate f (y w) = .error .outOfFuel w') ∨
      Run.relocate f (y w) = Run.relocate f (x w) := by
  obtain ⟨w', hstop⟩ | hsame := hx w
  · rw [hstop]
    exact .inl ⟨f w', rfl⟩
  · exact .inr (congrArg _ hsame)

end Run.StopsOrSame

/-- To be stopped or to do the same is a law. -/
def Run.stopLaw : Law where
  Holds x y := StopsOrSame x y
  AnyTree := True
  Allows _ := True
  result _ _ := .inr rfl
  sequence := StopsOrSame.bind
  failure _ _ _ := .inr rfl
  exhaustion _ := .inr rfl
  change _ hx := hx.mapFailure _
  inspecting id again hx w := by
    rw [guardInspecting_apply, guardInspecting_apply]
    split
    · exact .inr rfl
    · exact hx.relocate _ _
  comparing pair hx w := by
    rw [guardComparing_apply, guardComparing_apply]
    split
    · exact .inr rfl
    · exact hx.relocate _ _
  question _ _ := .inr rfl
  heap _ _ := .inr rfl
  cell _ _ := .inr rfl
  native _ _ := .inr rfl
  output _ _ := .inr rfl
  random _ := .inr rfl

theorem Run.covers_stopLaw : stopLaw.Covers where
  anyTree := trivial
  allows _ := trivial
  numbering _ _ := .inr rfl
  halting _ _ := .inr rfl
  naming hf w := hf w.sourceName w
  taking _ := .inr rfl

theorem Run.coversLoading_stopLaw : stopLaw.CoversLoading := by
  intro I J path hrun w
  rw [Interp.require_apply, Interp.require_apply]
  split
  · exact .inr rfl
  · cases w.host.resolve w.asked path with
    | error f => exact .inr rfl
    | ok code => exact StopsOrSame.bind (hrun code) (fun _ _ => .inr rfl) _

theorem Home.stopsOrSame_check (home : Home) (c : Callable) {x y : Run Value}
    (h : StopsOrSame x y) : StopsOrSame x (home.check c y) := by
  intro w
  obtain ⟨w', hstop⟩ | hsame := h w
  · unfold Home.check
    rw [hstop]
    exact .inl ⟨w', rfl⟩
  · unfold Home.check
    rw [hsame]
    cases x w with
    | ok v w' => exact .inr rfl
    | error e w' =>
      cases e with
      | outOfFuel => exact .inr rfl
      | failed f =>
        dsimp only
        split
        · split
          · exact .inr rfl
          · exact .inl ⟨w', rfl⟩
        · exact .inr rfl

/-- The vetted evaluator is stopped, or does what the evaluator does. -/
theorem joins_vetted (n : Nat) (home : Home) : stopLaw.Joins (interpreter n) (vetted n home) := by
  induction n generalizing home with
  | zero => exact fun _ => holds_outOfFuel
  | succ n ih =>
    have hstep : ∀ task,
        stopLaw.Holds (step n (interpreter n) task) (step n (vetted n home) task) :=
      fun task => covers_stopLaw.holds_step (ih home)
        (fun _ => Interp.holds_require covers_stopLaw (ih home) coversLoading_stopLaw) n
    intro task
    cases task with
    | eval scope node => exact hstep _
    | invoke c receiver args block =>
      cases c with
      | method m captured | block b captured => exact home.stopsOrSame_check _ (hstep _)
      | native serial m => exact hstep _
      | builtin b =>
        by_cases hb : b = .kernel .require
        · subst hb
          refine (holds_textArgument args).bind fun path => ?_
          refine Law.Holds.bind (fun w => ?_) fun loaded => holds_pure (Value.bool loaded)
          exact Interp.holds_require covers_stopLaw (ih (.required path w)) coversLoading_stopLaw
            path w
        · rw [vetted_builtin hb]
          exact hstep _

/-! ## Sessions -/

namespace Session

/-- The label and the text of the source that a program runs. -/
def Program.source? (w : World) : Program → Option (String × String)
  | .main code => some (w.sourceName, code)
  | .text code label => some (label, code)
  | .required path => (w.host.resolve w.asked path).toOption.map (path, ·)
  | .stream .. | .statements _ => none

theorem of_bind_pure_eq_error {x : Run α} {g : α → β} {w w' : World} {e : Halt}
    (h : (x >>= fun a => pure (g a)) w = .error e w') : x w = .error e w' := by
  rw [bind_apply] at h
  cases hx : x w with
  | ok a w₁ =>
    rw [hx] at h
    cases h
  | error e' w₁ =>
    rw [hx] at h
    cases h
    rfl

/-- A program that fails does so because its source does, unless it was loaded before. -/
theorem Program.runText_of_fails {interp : Interp} {p : Program} {label code : String}
    {w w' : World} {f : Failure} (hsource : p.source? w = some (label, code))
    (hfail : p.run interp w = .error (.failed f) w') :
    ∃ asked loaded, interp.runText code label { w with asked, loaded } = .error (.failed f) w' := by
  cases p with
  | main code' =>
    cases hsource
    exact ⟨w.asked, w.loaded, hfail⟩
  | text code' label' =>
    cases hsource
    exact ⟨w.asked, w.loaded, hfail⟩
  | stream s label' => cases hsource
  | statements nodes => cases hsource
  | required path =>
    obtain ⟨code', hcode, hpair⟩ := Option.map_eq_some_iff.1 hsource
    obtain ⟨rfl, rfl⟩ := Prod.mk.inj hpair
    have hok : w.host.resolve w.asked path = .ok code' := by
      cases hresolve : w.host.resolve w.asked path with
      | ok c =>
        rw [hresolve] at hcode
        cases hcode
        rfl
      | error e =>
        rw [hresolve] at hcode
        cases hcode
    have hrequire := of_bind_pure_eq_error hfail
    rw [Interp.require_apply] at hrequire
    by_cases hmem : path ∈ w.loaded
    · rw [if_pos hmem] at hrequire
      cases hrequire
    · rw [if_neg hmem, hok] at hrequire
      exact ⟨path :: w.asked, path :: w.loaded, of_bind_pure_eq_error hrequire⟩

/-- If no failure that is labelled as one of the source that is run leaves a method or block of
another source, and the resolver fails only for paths that cannot be loaded, a program that fails
gives a report, and each line in the report is the line of its place in the text from which the
place was read: that of the program, or one that the resolver gave for a path it was asked for. -/
theorem reports_quote_their_source (w w' : World) (p : Program) (label code : String) (f : Failure)
    (hload : w.host.resolve.FailsToLoad) (hsource : p.source? w = some (label, code))
    (hfail : p.run evaluator w = .error (.failed f) w')
    (hvetted : ∀ stopped, p.run (vetted depth (.reading label w.sources code)) w ≠
      .error .outOfFuel stopped) :
    ∃ report, f.report = some report ∧
      f.Shown (Failure.Quotable w.host.resolve w'.asked label code) report := by
  have hjoin := joins_vetted depth (.reading label w.sources code)
  have hrequire := Interp.holds_require covers_stopLaw hjoin coversLoading_stopLaw
  have hrun := p.holds_run covers_stopLaw hjoin (fun path _ => hrequire path) w
  have hsame := hrun.resolve_left fun ⟨stopped, h⟩ => hvetted stopped h
  obtain ⟨asked, loaded, hruns⟩ := Program.runText_of_fails hsource (hsame.trans hfail)
  exact (failSoundly_vetted hload depth).report_of_runText (w := { w with asked, loaded }) rfl hruns

/-- The report of a failure, if a result is one. -/
def reportOf : EStateM.Result Halt World Value → Option String
  | .error (.failed f) _ => f.report
  | _ => none

/-- A program that requires a source which fails, and whose line is in the report. -/
theorem reports_quote_their_source_required :
    let w := start "main" { resolve := .ofTable [("lib", "x = 1\n1 / 0")] }
    let p := Program.main "y = 2\nrequire \"lib\""
    let report := "lib:2:1: ZeroDivisionError: divided by 0\n1 / 0\n^^^^^\nwhile calling at 2:1"
    w.host.resolve.FailsToLoad ∧ p.source? w = some ("main", "y = 2\nrequire \"lib\"") ∧
      (∀ stopped, p.run (vetted depth (.reading "main" w.sources "y = 2\nrequire \"lib\"")) w ≠
        .error .outOfFuel stopped) ∧
      ∃ f w', p.run evaluator w = .error (.failed f) w' ∧ f.report = some report ∧
        f.Shown (Failure.Quotable w.host.resolve w'.asked "main" "y = 2\nrequire \"lib\"")
          report := by
  intro w p report
  have hload : w.host.resolve.FailsToLoad := Resolver.failsToLoad_calling _
  have hvetted : reportOf (p.run (vetted depth
      (.reading "main" w.sources "y = 2\nrequire \"lib\"")) w) = some report := by
    decide +kernel
  have hnot : ∀ stopped, p.run (vetted depth
      (.reading "main" w.sources "y = 2\nrequire \"lib\"")) w ≠ .error .outOfFuel stopped := by
    intro stopped h
    rw [h] at hvetted
    cases hvetted
  have hrun : reportOf (p.run evaluator w) = some report := by decide +kernel
  refine ⟨hload, rfl, hnot, ?_⟩
  cases hresult : p.run evaluator w with
  | ok v w' =>
    rw [hresult] at hrun
    cases hrun
  | error e w' =>
    cases e with
    | outOfFuel =>
      rw [hresult] at hrun
      cases hrun
    | failed f =>
      rw [hresult] at hrun
      obtain ⟨report', hreport, hshown⟩ :=
        reports_quote_their_source w w' p _ _ f hload rfl hresult hnot
      obtain rfl : report = report' := Option.some.inj (hrun.symm.trans hreport)
      exact ⟨f, w', rfl, hrun, hshown⟩

/-- A method of an earlier program fails. It has the label of the program that calls it, which is
the one that is quoted: `y = 2` is not the second line of what the method was read from. Nor is it
enough that labels differ: a block fails that a method of another source called, and the line shown
for the place in that method is one of the source of the block. -/
theorem line_of_another_source :
    Failure.sourceLine "def boom\n  nil + 1\nend" 1 = some "  nil + 1".toList ∧
    (let w := afterAll (start) [.main "def boom\n  nil + 1\nend"]
    reportOf ((Program.main "x = 1\ny = 2\nboom").run evaluator w) = some
      ("main:2:3: NoMethodError: undefined method '+' for an instance of NilClass\n" ++
        "y = 2\n  ^^^\nwhile calling at 2:3\nboom\n^^^^\nwhile calling at 3:1")) ∧
    (let w := afterAll (start) [.text "def twice\n  yield\nend" "lib"]
    reportOf ((Program.text "# a\n# b\ntwice do\n  nil + 1\nend" "app").run evaluator w) = some
      ("app:4:3: NoMethodError: undefined method '+' for an instance of NilClass\n  nil + 1\n" ++
        "  ^^^^^^^\nwhile calling at 4:3\n# b\n  ^\nwhile yielding at 2:3\ntwice do\n^^^^^^^^\n" ++
        "while calling at 3:1")) := by
  decide +kernel

end Session

end Spinel
