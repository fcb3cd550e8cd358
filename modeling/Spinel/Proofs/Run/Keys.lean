import Spinel.Proofs.Heap.Containment
import Spinel.Proofs.Run.Reachable

/-!
# Keys that are texts

A hash keeps a copy of a text that is used as a key, so that it can go on finding the entry when the
text is changed. The copy is out of reach as long as the hash is not asked for its keys: until then,
entries stay filed under the contents of their keys (`Session.text_keys_in_step`). A program that
asks for the keys can change them.
-/

namespace Spinel

open Run

namespace Session

variable {w : World}

/-- In the run of each of these programs no task is begun by which a program would get hold of a key
of one of some tables: the evaluator that stops before such tasks does the same. -/
def LeaveKeys (tables : TableRef → Prop) (w : World) : List Program → Prop
  | [] => True
  | p :: ps => p.run (guarded tables depth) w = p.run evaluator w ∧
    LeaveKeys tables ((p.run evaluator).after w) ps

/-- Programs that leave the keys of tables alone keep heaps regular on which these keys are kept
from them. -/
theorem LeaveKeys.regular [S : Secrecy] {ps : List Program} (hps : LeaveKeys S.discreet w ps)
    (hany : ¬S.fromText) (hr : w.heap.Regular) : (afterAll w ps).heap.Regular := by
  induction ps generalizing w with
  | nil => exact hr
  | cons p rest ih =>
    have hsafe := Program.safe_run (w := w) (p := p) (agrees_guarded depth) fun ht => absurd ht hany
    have hafter := (hsafe.keeps_after hr).2
    unfold after at hafter
    rw [hps.1] at hafter
    exact ih hps.2 hafter

/-- As long as programs leave the keys of some tables alone, each entry of these tables whose key is
a text is filed under what the text is now, and is found by its own key. -/
theorem text_keys_in_step (sourceName : String) (host : Host) (tables : TableRef → Prop)
    (ps : List Program) (hps : LeaveKeys tables (start sourceName host) ps) :
    let h := (afterAll (start sourceName host) ps).heap
    ∀ r, tables r → ∀ e ∈ (h.table r).entries, ∀ c, e.2.key = .str c →
      e.1 = .str (h.text c) ∧ (h.table r).get? (h.key e.2.key) = some e.2 := by
  intro h r hr e he c hc
  let S : Secrecy := ⟨⟨tables, False⟩, fun _ => False⟩
  have hregular : @Heap.Regular S h := hps.regular id (Core.regular_of_unreserved fun _ hc => hc)
  have hfiled : e.1 = .str (h.text c) := (hregular.tables r e he).inStep hr c hc
  refine ⟨hfiled, ?_⟩
  rw [hc, Heap.key_str, ← hfiled]
  exact OrderedMap.get?_eq_some_iff.2 he

/-- Evaluating a node is never a task that hands out a key. Only the tasks that come of it are. -/
theorem guarded_eval (tables : TableRef → Prop) (n : Nat) (scope : ScopeRef) (node : Node) :
    guarded tables (n + 1) (.eval scope node) = step n (guarded tables n) (.eval scope node) :=
  funext fun _ => if_pos id

/-- Nor is calling a method on a text that is no key of the tables. -/
theorem guarded_invoke_of_text {tables : TableRef → Prop} {c : TextRef}
    (hc : ¬w.heap.IsKeyOf tables c) (n : Nat) (m : StringMethod) (args : List Value)
    (block : Option Callable) :
    guarded tables (n + 1) (.invoke (.builtin (.string m)) (.str c) args block) w =
      step n (guarded tables n) (.invoke (.builtin (.string m)) (.str c) args block) w := by
  refine if_pos ?_
  rintro (⟨_, _, hhash, -⟩ | ⟨_, hstr, hkey, -⟩)
  · cases hhash
  · cases hstr
    exact hc hkey

/-- The program `$s = "a"; $h = {$s => 1}`. -/
def keyed : Program :=
  let s : Node := ⟨default, .globalVar "$s"⟩
  .statements [⟨default, .assign s ⟨default, .str "a"⟩⟩,
    ⟨default, .assign ⟨default, .globalVar "$h"⟩
      ⟨default, .hash [(s, ⟨default, .integer 1⟩)]⟩⟩]

theorem run_guarded_keyed (tables : TableRef → Prop) (w : World) :
    keyed.run (guarded tables depth) w = keyed.run evaluator w := by
  obtain ⟨n, hn⟩ : ∃ n, depth = n + 3 := ⟨depth - 3, by decide⟩
  -- The program has no calls, so that the two evaluators unfold to the same computation.
  simp only [evaluator, hn, keyed, Program.run, Interp.body, guarded_eval, interpreter, step,
    Interp.form, Interp.assign, Interp.store, Interp.hashEntries]

/-- The node `$s << "b"`. -/
def appended : Node := ⟨default, .send ⟨default, .globalVar "$s"⟩ "<<" [⟨default, .str "b"⟩]⟩

/-- The program `$s << "b"`. -/
def appending : Program := .statements [appended]

theorem form_appended {i : Interp} {c : TextRef} {v : Value} {w' : World} {m : Callable} (n : Nat)
    (hvar : i (.eval Core.root ⟨default, .globalVar "$s"⟩) w = .ok (.str c) w)
    (harg : i (.eval Core.root ⟨default, .str "b"⟩) w = .ok v w')
    (hm : w'.heap.methodOf (.str c) "<<" = some m) :
    i.form n Core.root appended w =
      (i (.invoke m (.str c) [v] none)).tagged default .calling w' := by
  have hall : i.evalAll Core.root [⟨default, .str "b"⟩] w = .ok [v] w' := bind_of_ok harg _
  have hsend : i.send (.str c) "<<" [v] none w' = i (.invoke m (.str c) [v] none) w' := by
    unfold Interp.send
    rw [bind_apply]
    simp only [Run.reading, hm]
  refine (bind_of_ok hvar _).trans ((bind_of_ok hall _).trans ?_)
  change (i.send (.str c) "<<" [v] none).tagged default .calling w' = _
  unfold tagged mapFailure
  rw [hsend]

/-- To change a text that is no key leaves the keys alone. -/
theorem run_guarded_appending {tables : TableRef → Prop} {c : TextRef}
    (hs : w.heap.findLocal Core.root "$s" = some (.str c))
    (hm : w.heap.methodOf (.str c) "<<" = some (.builtin (.string .append)))
    (hc : ¬w.heap.IsKeyOf tables c) :
    appending.run (guarded tables depth) w = appending.run evaluator w := by
  obtain ⟨n, hn⟩ : ∃ n, depth = n + 3 := ⟨depth - 3, by decide⟩
  let w' : World := { w with heap := (w.heap.newText "b").2 }
  have hvar : ∀ i : Interp, step (n + 1) i (.eval Core.root ⟨default, .globalVar "$s"⟩) w =
      .ok (.str c) w := by
    intro i
    change EStateM.Result.ok (Value.ofOption (w.heap.findLocal Core.root "$s")) w = _
    rw [hs]
    rfl
  have harg : ∀ i : Interp, step (n + 1) i (.eval Core.root ⟨default, .str "b"⟩) w =
      .ok (.str (w.heap.newText "b").1) w' := fun _ => rfl
  have hclasses : w'.heap.classes = w.heap.classes := rfl
  have hmethod : w'.heap.methodOf (.str c) "<<" = some (.builtin (.string .append)) :=
    (Heap.findMethod_congr hclasses _ _).trans hm
  have hkey : ¬w'.heap.IsKeyOf tables c := hc
  have hform : (guarded tables (n + 2)).form (n + 2) Core.root appended w =
      (interpreter (n + 2)).form (n + 2) Core.root appended w := by
    rw [form_appended _ ((congrFun (guarded_eval _ _ _ _) w).trans (hvar _))
      ((congrFun (guarded_eval _ _ _ _) w).trans (harg _)) hmethod,
      form_appended (i := interpreter (n + 2)) _ (hvar _) (harg _) hmethod]
    unfold tagged mapFailure
    rw [guarded_invoke_of_text hkey]
    rfl
  have heval : guarded tables depth (.eval Core.root appended) w =
      evaluator (.eval Core.root appended) w := by
    rw [evaluator, hn, guarded_eval]
    change mapFailure _ _ w = mapFailure _ _ w
    unfold mapFailure
    rw [hform]
  change (guarded tables depth (.eval Core.root appended) >>= _) w = (evaluator _ >>= _) w
  rw [bind_apply, bind_apply, heval]
  rfl
/-- The text in the variable is no key, and has the built-in method. -/
def isAppendable (h : Heap) : Bool :=
  match h.findLocal Core.root "$s" with
  | some (.str c) =>
    (List.range h.tables.size).all (fun i => (h.table ⟨i⟩).values.all (!h.same ·.key (.str c))) &&
      match h.methodOf (.str c) "<<" with
      | some (.builtin (.string .append)) => true
      | _ => false
  | _ => false

theorem exists_of_isAppendable {h : Heap} (hh : isAppendable h = true) (tables : TableRef → Prop) :
    ∃ c, h.findLocal Core.root "$s" = some (.str c) ∧
      h.methodOf (.str c) "<<" = some (.builtin (.string .append)) ∧ ¬h.IsKeyOf tables c := by
  unfold isAppendable at hh
  split at hh
  · next c hs =>
    obtain ⟨hkeys, hm⟩ := Bool.and_eq_true_iff.1 hh
    refine ⟨c, hs, ?_, ?_⟩
    · split at hm
      · assumption
      · cases hm
    · rintro ⟨r, -, e, he, hkey⟩
      have hr := List.mem_range.2 (Heap.index_lt_of_mem_table he)
      have hother := List.all_eq_true.1 (List.all_eq_true.1 hkeys _ hr) _ (List.mem_map_of_mem he)
      rw [hkey] at hother
      simp [Heap.same] at hother
  · cases hh

theorem leaveKeys_appending : LeaveKeys (fun _ => True) start [keyed, appending] := by
  have happend : isAppendable ((keyed.run evaluator).after start).heap = true := by decide +kernel
  obtain ⟨c, hs, hm, hc⟩ := exists_of_isAppendable happend fun _ => True
  exact ⟨run_guarded_keyed _ _, run_guarded_appending hs hm hc, trivial⟩

/-- The hash has a key of its own, which stays in step with its entry when the text is changed. -/
theorem text_keys_in_step_keyed :
    let h := (afterAll start [keyed, appending]).heap
    LeaveKeys (fun _ => True) start [keyed, appending] ∧
      h.text ⟨0⟩ = "ab" ∧
      ((h.table ⟨0⟩).entries.map (fun e => (e.1, h.key e.2.key)) == [(.str "a", .str "a")]) ∧
      ∀ r, True → ∀ e ∈ (h.table r).entries, ∀ c, e.2.key = .str c →
        e.1 = .str (h.text c) ∧ (h.table r).get? (h.key e.2.key) = some e.2 :=
  ⟨leaveKeys_appending, by decide +kernel, by decide +kernel,
    text_keys_in_step "main" {} _ _ leaveKeys_appending⟩

/-- A program that asks for a key can change it. The entry stays where it was, and is no longer
found by its key. -/
theorem changed_key_out_of_step :
    let h := (afterAll (start) [.text "h = \x7b\"a\" => 1\x7d\nh.keys[0] << \"b\"" "main"]).heap
    ((h.table ⟨0⟩).entries.map (fun e => (e.1, h.key e.2.key)) == [(.str "a", .str "ab")]) ∧
      ((h.table ⟨0⟩).get? (.str "ab")).isNone := by
  decide +kernel

end Session

end Spinel
