import Spinel.Proofs.Run.Evaluation
import Spinel.Session

/-!
# States that programs reach

Every state that any sequence of programs leads to has a regular heap (`Session.regular_afterAll`).
If all programs are read from texts, the trees on it are sound as well, and the names of classes
plain (`Session.regular_afterAll_of_read`). What holds on regular heaps also holds inside runs,
whenever a task is begun: an evaluator that checks it before each task never raises the alarm
(`Session.watched_run`). An evaluator that stops before tasks that hand out keys keeps them in step
with their entries (`agrees_guarded`).
-/

namespace Spinel

open Run

variable {α : Type} {w : World}

/-! ## Evaluators -/

/-- The evaluator, with a check before each task, and an alarm in place of a task that does not pass
it. -/
noncomputable def watched (ok : World → Task → Prop) (alarm : Run Value) : Nat → Interp
  | 0, _ => Run.outOfFuel
  | n + 1, task => fun w =>
    open Classical in if ok w task then step n (watched ok alarm n) task w else alarm w

theorem Interp.Agrees.of_policy {S T : Secrecy} {i j : Interp} (hij : @Interp.Agrees S i j)
    (hT : T.toPolicy = S.toPolicy) : @Interp.Agrees T i j :=
  fun T' hT' => hij T' (hT'.trans hT)

section Free

variable {fromText : Prop}

/-- Where there are no tables that keep their keys to themselves, no task exposes any. -/
theorem Task.not_exposes {T : Secrecy} {h : Heap} {task : Task}
    (hT : T.toPolicy = (Secrecy.free fromText).toPolicy) : ¬task.Exposes T.discreet h := by
  rw [hT]
  cases task with
  | eval scope node => exact id
  | invoke c receiver args block =>
    rintro (⟨-, r, -, -, -, hr⟩ | ⟨-, -, ⟨r, hr, -⟩, -⟩) <;> exact hr

/-- If nothing is kept from programs, the tasks that evaluators are given are ready. -/
theorem Task.Allowed.ready_of_open {T : Secrecy} {h : Heap} {task : Task}
    (ht : @Task.Allowed T h task) (hT : T.toPolicy = (Secrecy.free fromText).toPolicy)
    (e : Heap.ExtendsFrom T h (.free fromText) h) : @Task.Ready (.free fromText) h task := by
  cases ht with
  | ready ht =>
    cases task with
    | eval scope node => exact ⟨ht.1, ht.2.later e⟩
    | invoke c receiver args block =>
      exact ⟨⟨ht.1.1.later e, ht.1.2⟩, ht.2.1.later e, ht.2.2.1.later e, ht.2.2.2.later e⟩
  | look hk ha hb =>
    refine ⟨⟨trivial, ?_⟩, ⟨hk.1, ?_⟩, ha.later e, hb.later e⟩
    · rintro b ⟨⟩
      exact h.mem_ancestors_self Core.string
    · rintro (hres | ⟨r, hd, -⟩)
      · exact hres
      · exact hd
  | exposing ht => exact absurd ht (Task.not_exposes hT)

/-- A check that regular heaps and ready tasks pass never raises the alarm. -/
theorem agrees_watched {ok : World → Task → Prop}
    (hok : ∀ w task, @Heap.Regular (.free fromText) w.heap →
      @Task.Ready (.free fromText) w.heap task → ok w task) (alarm : Run Value) (n : Nat) :
    @Interp.Agrees (.free fromText) (interpreter n) (watched ok alarm n) := by
  induction n with
  | zero => exact fun T _ w task _ => @tracks_outOfFuel T _ _ _
  | succ n ih =>
    intro T hT w task ht hr
    obtain ⟨hsame, hkeeps⟩ := safe_step (ih.of_policy hT) n ht (Task.not_exposes hT) hr
    obtain ⟨e, hr'⟩ := hr.release (S := .free fromText) hT.symm fun _ hc => hc.elim
    exact ⟨(if_pos (hok w task hr' (ht.ready_of_open hT e))).trans hsame, hkeeps⟩

theorem agrees_interpreter (n : Nat) :
    @Interp.Agrees (.free fromText) (interpreter n) (interpreter n) := by
  induction n with
  | zero => exact fun T _ w task _ => @tracks_outOfFuel T _ _ _
  | succ n ih => exact fun T hT w task ht => safe_step (ih.of_policy hT) n ht (Task.not_exposes hT)

end Free

/-- The evaluator, stopped before tasks by which a program would get hold of the keys of some
tables. -/
noncomputable def guarded (tables : TableRef → Prop) (n : Nat) : Interp :=
  watched (fun w task => ¬task.Exposes tables w.heap) Run.outOfFuel n

/-- Without such tasks the evaluator keeps heaps regular on which these keys are kept from
programs. -/
theorem agrees_guarded [S : Secrecy] (n : Nat) :
    (guarded S.discreet n).Agrees (guarded S.discreet n) := by
  induction n with
  | zero => exact fun T _ w task _ => @tracks_outOfFuel T _ _ _
  | succ n ih =>
    intro T hT w task ht hr
    by_cases hexposes : task.Exposes S.discreet w.heap
    · have hstop : guarded S.discreet (n + 1) task w = Run.outOfFuel w :=
        if_neg (not_not_intro hexposes)
      rw [hstop]
      exact ⟨rfl, .refl _⟩
    · have hgo : guarded S.discreet (n + 1) task w = step n (guarded S.discreet n) task w :=
        if_pos hexposes
      rw [hgo]
      exact safe_step (ih.of_policy hT) n ht (hT ▸ hexposes) hr

namespace Run

/-- The state that a computation leaves, with or without a result. -/
def after (x : Run α) (w : World) : World :=
  match x w with
  | .ok _ w' => w'
  | .error _ w' => w'

theorem Tracks.keeps_after {S : Secrecy} {x y : Run α} {Q : Heap → α → Prop}
    (hx : Tracks w x y Q) : w.heap.Keeps (x.after w).heap := by
  intro hr
  unfold after
  rcases hx.cases hr with ⟨a, w', hxw, -, hs, -⟩ | ⟨e, w', hxw, -, hs⟩
  · rw [hxw]
    exact hs hr
  · rw [hxw]
    exact hs hr

end Run

/-- Whatever depth the evaluator has, a task that is ready keeps heaps regular. -/
theorem Task.Ready.keeps {fromText : Prop} {task : Task}
    (ht : @Task.Ready (.free fromText) w.heap task) (n : Nat) :
    @Heap.Keeps (.free fromText) w.heap ((interpreter n task).after w).heap :=
  Tracks.keeps_after (agrees_interpreter n (.free fromText) rfl w task
    (@Task.Allowed.ready (.free fromText) _ _ ht))

/-! ## Programs -/

namespace Session

/-- A program in one of the forms in which a session takes them. -/
inductive Program where
  /-- The main program. -/
  | main (code : String)
  /-- A text with a label. -/
  | text (code label : String)
  /-- A text that is read line by line. -/
  | stream (s : Stream) (label : String)
  /-- What the resolver finds. -/
  | required (path : String)
  /-- Statements that were read before. -/
  | statements (nodes : List Node)

def Program.run (interp : Interp) : Program → Run Value
  | .main code => do interp.runText code (← get).sourceName
  | .text code label => interp.runText code label
  | .stream s label => interp.runStream s label
  | .required path => do return .bool (← interp.require path)
  | .statements nodes => interp.body Core.root .nil nodes

/-- Statements that were read before were read from some texts. -/
def Program.IsRead : Program → Prop
  | .statements nodes => ∀ node ∈ nodes, ∃ source s body text,
    Grammar.parse source s = (.program body, text) ∧ node ∈ body
  | .main _ | .text .. | .stream .. | .required _ => True

/-- The state of a session after some programs, which may fail. -/
def afterAll (w : World) (ps : List Program) : World :=
  ps.foldl (fun w p => (p.run evaluator).after w) w

theorem Program.safe_run [S : Secrecy] {i j : Interp} (hij : i.Agrees j) {p : Program}
    (hp : S.fromText → p.IsRead) : Safe w (p.run i) (p.run j) := by
  cases p with
  | main code =>
      exact asks_get.bind fun _ _ => Interp.safe_runText hij code _
  | text code label => exact Interp.safe_runText hij code label
  | stream s label => exact Interp.safe_runStream hij s label
  | required path => exact (Interp.safe_require hij path).bind fun _ _ _ _ => tracks_pure trivial
  | statements nodes =>
    have hnil : Lives w.heap Value.nil := trivial
    have hnodes : Lives w.heap nodes := fun node hnode ht => by
      obtain ⟨source, s, body, text, hparse, hmem⟩ := hp ht node hnode
      exact Grammar.sound_of_parse hparse node hmem
    exact tracks_of_regular fun hr => Interp.safe_body hij hr.lives_root hnil hnodes

section Free

variable {fromText : Prop}

/-- What a program does to a regular heap leaves it regular. -/
theorem keeps_run {p : Program} (hp : fromText → p.IsRead) :
    @Heap.Keeps (.free fromText) w.heap ((p.run evaluator).after w).heap :=
  Tracks.keeps_after (Program.safe_run (S := .free fromText) (agrees_interpreter depth) hp)

theorem regular_afterAll_of_read {ps : List Program} (hps : fromText → ∀ p ∈ ps, p.IsRead)
    (hr : @Heap.Regular (.free fromText) w.heap) :
    @Heap.Regular (.free fromText) (afterAll w ps).heap := by
  induction ps generalizing w with
  | nil => exact hr
  | cons p rest ih =>
    refine ih (fun ht q hq => hps ht q (List.mem_cons_of_mem _ hq)) ?_
    exact (keeps_run (fun ht => hps ht p List.mem_cons_self) hr).2

/-- Inside the run of a program, all that regular heaps and ready tasks have holds whenever a task
is begun. -/
theorem watched_run_of_read {p : Program} (hp : fromText → p.IsRead)
    (hr : @Heap.Regular (.free fromText) w.heap) {ok : World → Task → Prop}
    (hok : ∀ w task, @Heap.Regular (.free fromText) w.heap →
      @Task.Ready (.free fromText) w.heap task → ok w task) (alarm : Run Value) :
    p.run (watched ok alarm depth) w = p.run evaluator w :=
  (Program.safe_run (S := .free fromText) (agrees_watched hok alarm depth) hp hr).1

end Free

theorem regular_afterAll (hr : w.heap.Regular) (ps : List Program) :
    (afterAll w ps).heap.Regular :=
  regular_afterAll_of_read False.elim hr

theorem watched_run (hr : w.heap.Regular) {ok : World → Task → Prop}
    (hok : ∀ w task, w.heap.Regular → task.Ready w.heap → ok w task) (alarm : Run Value)
    (p : Program) : p.run (watched ok alarm depth) w = p.run evaluator w :=
  watched_run_of_read False.elim hr hok alarm

end Session

end Spinel
