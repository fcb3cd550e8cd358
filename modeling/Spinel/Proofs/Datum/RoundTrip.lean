import Spinel.Proofs.Datum.Inspect
import Spinel.Proofs.Datum.Parse
import Spinel.Session

/-!
# What is shown can be evaluated

A literal that stands for a datum evaluates to a value that holds it, with all entries of its hashes
filed (`Datum.evaluate`). Together with the texts of data this makes `inspect` and evaluation
inverse to one another, up to equality of values (`inspect_then_run`), for values whose hashes are
filed. It fails for a hash with a key that was changed (`changed_key_not_equal`).
-/

namespace Spinel

theorem Run.mapFailure_ok {α : Type} {x : Run α} {w w' : World} {a : α} (h : x w = .ok a w')
    (f : Failure → Failure) : x.mapFailure f w = .ok a w' := by
  unfold mapFailure
  rw [h]

theorem eval_of_form {n : Nat} {scope : ScopeRef} {node : Node} {w w' : World} {v : Value}
    (h : (interpreter n).form n scope node w = .ok v w') :
    interpreter (n + 1) (.eval scope node) w = .ok v w' :=
  Run.mapFailure_ok h _

namespace Datum

/-! ## Literals -/

/-- Literals of the datum evaluate to it, with an evaluator of depth `n`. -/
def EvaluatesAt (n : Nat) (d : Datum) : Prop :=
  ∀ (w : World) (scope : ScopeRef) (node : Node), d.Matches node.form →
    ∃ v w', interpreter n (.eval scope node) w = .ok v w' ∧ w.Grows w' ∧ d.FiledAs w'.heap v

theorem evalAll_eq {n : Nat} {ds : List Datum} (hd : ∀ d ∈ ds, d.EvaluatesAt n) (w : World)
    (scope : ScopeRef) (nodes : List Node) (hnodes : AllMatch ds nodes) :
    ∃ vs w', (interpreter n).evalAll scope nodes w = .ok vs w' ∧ w.Grows w' ∧
      AllHold w'.heap (fun filed k => filed = k.key) ds vs := by
  induction ds generalizing w nodes with
  | nil =>
    cases hnodes
    exact ⟨[], w, rfl, .refl w, rfl⟩
  | cons d ds ih =>
    obtain ⟨node, nodes, hnode, hnodes, rfl⟩ := hnodes
    obtain ⟨v, w₁, hrun, hgrow, hv⟩ := hd d List.mem_cons_self w scope node hnode
    obtain ⟨vs, w₂, hrest, hgrow', hvs⟩ :=
      ih (fun d hm => hd d (List.mem_cons_of_mem _ hm)) w₁ nodes hnodes
    refine ⟨v :: vs, w₂, ?_, hgrow.trans hgrow', v, vs, HoldsWith.grow hgrow'.heap _ _ hv, hvs, rfl⟩
    rw [Interp.evalAll, bind_of_ok hrun, bind_of_ok hrest]
    rfl

/-- The kept key of an entry holds the same datum as the given one. -/
theorem FiledAs.entryKey {h : Heap} {d : Datum} {v : Value} (hv : d.FiledAs h v) :
    d.FiledAs (h.entryKey v).2 (h.entryKey v).1 := by
  cases d with
  | str s =>
    obtain ⟨r, -, rfl, rfl⟩ := hv
    exact ⟨_, (Store.size_push _ _).symm ▸ Nat.lt_succ_self _, Store.get_push_size _ _, rfl⟩
  | array items =>
    obtain ⟨r, hr, hitems, rfl⟩ := hv
    exact ⟨r, hr, hitems, rfl⟩
  | hash entries =>
    obtain ⟨r, hr, hnodup, hentries, rfl⟩ := hv
    exact ⟨r, hr, hnodup, hentries, rfl⟩
  | _ =>
    cases hv
    rfl

theorem PairsHold.append {h : Heap} {P : HashKey → Datum → Prop} {ds ds' : List (Datum × Datum)}
    {es es' : List (HashKey × Entry)} (hes : PairsHold h P ds es) (hes' : PairsHold h P ds' es') :
    PairsHold h P (ds ++ ds') (es ++ es') := by
  induction ds generalizing es with
  | nil =>
    cases hes
    exact hes'
  | cons d ds ih =>
    obtain ⟨filed, e, more, hP, hkey, hvalue, hmore, rfl⟩ := hes
    exact ⟨filed, e, more ++ es', hP, hkey, hvalue, ih hmore, rfl⟩

theorem PairsHold.grow {h h' : Heap} {P : HashKey → Datum → Prop} {ds : List (Datum × Datum)}
    {es : List (HashKey × Entry)} (g : h.Grows h') (hes : PairsHold h P ds es) :
    PairsHold h' P ds es :=
  hes.mono fun _ _ _ _ hP hkey hvalue =>
    ⟨hP, HoldsWith.grow g _ _ hkey, HoldsWith.grow g _ _ hvalue⟩

/-- An entry with a new key comes last. -/
theorem PairsHold.insertEntry {h : Heap} {ds : List (Datum × Datum)} {t : Table} {k d : Datum}
    {key value : Value} (ht : PairsHold h (fun filed k => filed = k.key) ds t.entries)
    (hkey : k.FiledAs h key) (hfree : k.isHashFree = true) (hvalue : d.FiledAs h value)
    (hnew : k.key ∉ ds.map (·.1.key)) :
    h.Grows (h.insertEntry t key value).2 ∧
      PairsHold (h.insertEntry t key value).2 (fun filed k => filed = k.key) (ds ++ [(k, d)])
        (h.insertEntry t key value).1.entries := by
  have hgrow : h.Grows (h.entryKey key).2 := .entryKey h key
  have hentries : (h.insertEntry t key value).1.entries =
      t.entries ++ [(k.key, ⟨(h.entryKey key).1, value⟩)] := by
    rw [← ht.map_filed] at hnew
    rw [← OrderedMap.put_of_not_mem hnew, ← hkey.key_eq hfree]
    rfl
  refine ⟨hgrow, ?_⟩
  rw [hentries]
  exact (ht.grow hgrow).append ⟨_, ⟨(h.entryKey key).1, value⟩, [], rfl, hkey.entryKey,
    HoldsWith.grow hgrow _ _ hvalue, rfl, rfl⟩

/-- By induction on the entries that are left: those before them are in the table. -/
theorem hashEntries_eq {n : Nat} {ds : List (Datum × Datum)}
    (hd : ∀ d ∈ ds, d.1.EvaluatesAt n ∧ d.2.EvaluatesAt n)
    (hfree : ∀ d ∈ ds, d.1.isHashFree = true) (w : World) (scope : ScopeRef)
    (pairs : List (Node × Node)) (hpairs : PairsMatch ds pairs) (done : List (Datum × Datum))
    (t : Table) (ht : PairsHold w.heap (fun filed k => filed = k.key) done t.entries)
    (hnodup : ((done ++ ds).map (·.1.key)).Nodup) :
    ∃ t' w', (interpreter n).hashEntries scope t pairs w = .ok t' w' ∧ w.Grows w' ∧
      PairsHold w'.heap (fun filed k => filed = k.key) (done ++ ds) t'.entries := by
  induction ds generalizing w pairs done t with
  | nil =>
    cases hpairs
    exact ⟨t, w, rfl, .refl w, by rwa [List.append_nil]⟩
  | cons d ds ih =>
    obtain ⟨key, value, pairs, hkey, hvalue, hpairs, rfl⟩ := hpairs
    obtain ⟨hd₁, hd₂⟩ := hd d List.mem_cons_self
    obtain ⟨k, w₁, hrun₁, hgrow₁, hk⟩ := hd₁ w scope key hkey
    obtain ⟨v, w₂, hrun₂, hgrow₂, hv⟩ := hd₂ w₁ scope value hvalue
    have hnew : d.1.key ∉ done.map (·.1.key) := by
      rw [List.map_append, List.nodup_append] at hnodup
      exact fun hmem => hnodup.2.2 _ hmem _ (List.mem_map_of_mem List.mem_cons_self) rfl
    obtain ⟨hgrow₃, ht'⟩ := (ht.grow (hgrow₁.trans hgrow₂).heap).insertEntry
      (HoldsWith.grow hgrow₂.heap _ _ hk) (hfree d List.mem_cons_self) hv hnew
    have hinsert : Run.alloc (·.insertEntry t k v) w₂ = .ok (w₂.heap.insertEntry t k v).1
        { w₂ with heap := (w₂.heap.insertEntry t k v).2 } := rfl
    have hshift : done ++ d :: ds = done ++ [d] ++ ds := by simp
    rw [hshift] at hnodup ⊢
    obtain ⟨t', w₃, hrest, hgrow₄, hdone⟩ := ih (fun d hm => hd d (List.mem_cons_of_mem _ hm))
      (fun d hm => hfree d (List.mem_cons_of_mem _ hm))
      { w₂ with heap := (w₂.heap.insertEntry t k v).2 } pairs hpairs (done ++ [d]) _ ht' hnodup
    have hgrow : w₂.Grows { w₂ with heap := (w₂.heap.insertEntry t k v).2 } := ⟨hgrow₃, rfl⟩
    refine ⟨t', w₃, ?_, (hgrow₁.trans hgrow₂).trans (hgrow.trans hgrow₄), hdone⟩
    rw [Interp.hashEntries, bind_of_ok hrun₁, bind_of_ok hrun₂, bind_of_ok hinsert]
    exact hrest

theorem AllHold.exists_of_mem {h : Heap} {P : HashKey → Datum → Prop} {ds : List Datum}
    {vs : List Value} (hvs : AllHold h P ds vs) {d : Datum} (hd : d ∈ ds) :
    ∃ v, d.HoldsWith h P v := by
  induction ds generalizing vs with
  | nil => cases hd
  | cons e ds ih =>
    obtain ⟨v, rest, hv, hrest, -⟩ := hvs
    rcases List.mem_cons.1 hd with rfl | hd
    · exact ⟨v, hv⟩
    · exact ih hrest hd

theorem PairsHold.exists_of_mem {h : Heap} {P : HashKey → Datum → Prop} {ds : List (Datum × Datum)}
    {es : List (HashKey × Entry)} (hes : PairsHold h P ds es) {d : Datum × Datum} (hd : d ∈ ds) :
    (∃ v, d.1.HoldsWith h P v) ∧ ∃ v, d.2.HoldsWith h P v := by
  induction ds generalizing es with
  | nil => cases hd
  | cons d' ds ih =>
    obtain ⟨filed, e, more, -, hkey, hvalue, hmore, -⟩ := hes
    rcases List.mem_cons.1 hd with rfl | hd
    · exact ⟨⟨_, hkey⟩, ⟨_, hvalue⟩⟩
    · exact ih hmore hd

/-- A literal evaluates to the datum that it stands for, if there can be a value that holds it. -/
theorem evaluate (d : Datum) (hplain : d.isPlain = true) {h : Heap}
    (hd : ∃ v, d.FiledAs h v) : ∀ n, d.depth ≤ n → d.EvaluatesAt n := by
  induction d using Datum.induction with
  | nil | bool | int | symbol =>
    rintro (_ | n) hn w scope node hnode
    · cases hn
    refine ⟨_, w, eval_of_form ?_, .refl w, rfl⟩
    unfold Interp.form
    rw [hnode]
    rfl
  | range low high =>
    rintro (_ | _ | n) hn w scope node ⟨l, r, hl, hr, hform⟩
    · cases hn
    · cases hn with | step hn => cases hn
    have hint : ∀ {x : Int64} {node : Node}, node.form = .integer x →
        interpreter (n + 1) (.eval scope node) w = .ok (.int x) w := fun {x node} hnode => by
      refine eval_of_form ?_
      unfold Interp.form
      rw [hnode]
      rfl
    refine ⟨_, w, eval_of_form ?_, .refl w, rfl⟩
    unfold Interp.form
    rw [hform]
    simp only
    rw [bind_of_ok (hint hl), bind_of_ok (hint hr)]
    rfl
  | str s =>
    rintro (_ | n) hn w scope node hnode
    · cases hn
    refine ⟨.str (w.heap.newText s).1, { w with heap := (w.heap.newText s).2 }, eval_of_form ?_,
      ⟨.newText _ s, rfl⟩, ?_⟩
    · unfold Interp.form
      rw [hnode]
      rfl
    · exact ⟨_, (Store.size_push _ _).symm ▸ Nat.lt_succ_self _, Store.get_push_size _ _, rfl⟩
  | array items ih =>
    rintro (_ | n) hn w scope node ⟨nodes, hnodes, hform⟩
    · cases hn
    rw [depth, Nat.add_le_add_iff_right] at hn
    rw [isPlain, allPlain_iff] at hplain
    obtain ⟨_, r, -, hitems, -⟩ := hd
    obtain ⟨vs, w₁, hrun, hgrow, hvs⟩ := evalAll_eq (fun d hd => ih d hd (hplain d hd)
      (hitems.exists_of_mem hd) n (Nat.le_trans (depth_le_depths hd) hn)) w scope nodes hnodes
    refine ⟨.array (w₁.heap.newList vs.toArray).1,
      { w₁ with heap := (w₁.heap.newList vs.toArray).2 }, eval_of_form ?_,
      hgrow.trans ⟨.newList _ _, rfl⟩, ?_⟩
    · unfold Interp.form
      rw [hform]
      simp only
      rw [bind_of_ok hrun]
      rfl
    · refine ⟨_, (Store.size_push _ _).symm ▸ Nat.lt_succ_self _, ?_, rfl⟩
      have hlist : (w₁.heap.newList vs.toArray).2.list (w₁.heap.newList vs.toArray).1 =
          vs.toArray := Store.get_push_size _ _
      rw [hlist]
      exact hvs.mono fun d _ v _ hv => HoldsWith.grow (.newList _ _) d v hv
  | hash entries ih =>
    rintro (_ | n) hn w scope node ⟨pairs, hpairs, hform⟩
    · cases hn
    rw [depth, Nat.add_le_add_iff_right] at hn
    rw [isPlain, allPlainPairs_iff] at hplain
    obtain ⟨_, r, -, hnodup, hentries, -⟩ := hd
    rw [OrderedMap.keys, hentries.map_filed] at hnodup
    have hdata : ∀ e ∈ entries, e.1.EvaluatesAt n ∧ e.2.EvaluatesAt n := fun e he => by
      obtain ⟨hplainKey, -, hplainValue⟩ := hplain e he
      obtain ⟨hkey, hvalue⟩ := hentries.exists_of_mem he
      have hdepth := depth_le_pairDepths he
      exact ⟨(ih e he).1 hplainKey hkey n (Nat.le_trans hdepth.1 hn),
        (ih e he).2 hplainValue hvalue n (Nat.le_trans hdepth.2 hn)⟩
    obtain ⟨t, w₁, hrun, hgrow, ht⟩ := hashEntries_eq hdata (fun e he => (hplain e he).2.1) w scope
      pairs hpairs [] .empty rfl hnodup
    refine ⟨.hash (w₁.heap.newTable t).1, { w₁ with heap := (w₁.heap.newTable t).2 },
      eval_of_form ?_, hgrow.trans ⟨.newTable _ _, rfl⟩, ?_⟩
    · unfold Interp.form
      rw [hform]
      simp only
      rw [bind_of_ok hrun]
      rfl
    · refine ⟨_, (Store.size_push _ _).symm ▸ Nat.lt_succ_self _, ?_, ?_, rfl⟩ <;>
        have htable : (w₁.heap.newTable t).2.table (w₁.heap.newTable t).1 = t :=
          Store.get_push_size _ _
      · rw [htable, OrderedMap.keys, ht.map_filed]
        exact hnodup
      · rw [htable]
        exact ht.grow (.newTable _ _)

end Datum

/-! ## Round trips -/

open Datum

/-- The text of a datum evaluates to a value that holds it. -/
theorem runText_text {d : Datum} (hplain : d.isPlain = true) {h : Heap} (hd : ∃ v, d.FiledAs h v)
    {n : Nat} (hn : d.depth ≤ n) (label : String) (w : World) :
    ∃ u w', (interpreter n).runText d.text label w = .ok u w' ∧ w.heap.Grows w'.heap ∧
      d.FiledAs w'.heap u := by
  obtain ⟨node, code, hnode, hparse⟩ := parse_text hplain ⟨label, w.sources⟩
  obtain ⟨u, w', heval, hgrow, hu⟩ := d.evaluate hplain hd n hn
    { w with sources := w.sources + 1 } Core.root node hnode
  refine ⟨u, w', ?_, hgrow.heap, hu⟩
  have hbody : (interpreter n).body Core.root .nil [node] { w with sources := w.sources + 1 } =
      .ok u w' := by
    rw [Interp.body, bind_of_ok heval]
    rfl
  have hsource :
      Run.newSource label w = .ok ⟨label, w.sources⟩ { w with sources := w.sources + 1 } := rfl
  unfold Interp.runText Interp.runStream
  rw [bind_of_ok hsource, hparse]
  exact Run.mapFailure_ok hbody _

/-- With the core classes as they are at the start, a value that holds a datum, its hashes filed, is
shown as a program of one statement, which evaluates to an equal value. -/
theorem inspect_then_run {w : World} {v : Value} {d : Datum} (hplain : d.isPlain = true)
    (hclasses : w.heap.classes = Core.heap.classes) (hidle : w.inspecting = [])
    (hv : d.Holds w.heap v) (hfiled : w.heap.Filed v) {n : Nat} (hn : d.depth ≤ n)
    (label : String) :
    ∃ text w₁, (interpreter n).inspect v w = .ok text w₁ ∧
      (∀ source, ∃ node code, Grammar.parse source (.ofText text) = (.program [node], code)) ∧
      ∃ u w₂, (interpreter n).runText text label w₁ = .ok u w₂ ∧ w₂.heap.equal v u = true := by
  obtain ⟨w₁, hshow, hgrow⟩ := d.inspect_eq n hn w v hclasses hv (by simp [hidle])
  have hd := Holds.filedAs d hplain v hv hfiled
  obtain ⟨u, w₂, hrun, hgrow₂, hu⟩ := runText_text hplain ⟨v, hd⟩ hn label w₁
  refine ⟨d.text, w₁, hshow, fun source => ?_, u, w₂, hrun, ?_⟩
  · obtain ⟨node, code, -, hparse⟩ := parse_text hplain source
    exact ⟨node, code, hparse⟩
  · exact FiledAs.equal (HoldsWith.grow (hgrow.heap.trans hgrow₂) d v hd) hu

theorem Datum.HoldsWith.singleton {h : Heap} {P : HashKey → Datum → Prop} {k d : Datum}
    {r : TableRef} {filed : HashKey} {key value : Value} (hr : r.index < h.tables.size)
    (htable : h.table r = { entries := [(filed, ⟨key, value⟩)] }) (hP : P filed k)
    (hkey : k.HoldsWith h P key) (hvalue : d.HoldsWith h P value) :
    (Datum.hash [(k, d)]).HoldsWith h P (.hash r) := by
  refine ⟨r, hr, ?_, ?_, rfl⟩
  · rw [htable]
    exact List.pairwise_singleton _ _
  · rw [htable]
    exact ⟨filed, ⟨key, value⟩, [], hP, hkey, hvalue, rfl, rfl⟩

/-- A hash of `[:a]`, a key that it is filed under, to a string, an integer and a range. -/
def sampleWorld : World where
  heap := { Core.heap with
    texts := ⟨#["#\x7b\n"]⟩
    lists := ⟨#[#[.symbol "a"], #[.str ⟨0⟩, .int Int64.minValue, .range 1 (-3)]]⟩
    tables := ⟨#[{ entries := [(.array [.symbol "a"], ⟨.array ⟨0⟩, .array ⟨1⟩⟩)] }]⟩ }

/-- The least integer, a range down to a negative bound and an escaped text, all at once. -/
theorem inspect_then_run_sample :
    ∃ text w₁, (interpreter 4).inspect (.hash ⟨0⟩) sampleWorld = .ok text w₁ ∧
      (∀ source, ∃ node code, Grammar.parse source (.ofText text) = (.program [node], code)) ∧
      ∃ u w₂, (interpreter 4).runText text "main" w₁ = .ok u w₂ ∧
        w₂.heap.equal (.hash ⟨0⟩) u = true := by
  refine inspect_then_run (d := .hash [(.array [.symbol "a"],
    .array [.str "#\x7b\n", .int Int64.minValue, .range 1 (-3)])]) (by decide) rfl rfl ?_ ?_
    (by decide) "main"
  · have hkey : (Datum.array [.symbol "a"]).Holds sampleWorld.heap (.array ⟨0⟩) :=
      ⟨⟨0⟩, by decide, ⟨.symbol "a", [], rfl, rfl, rfl⟩, rfl⟩
    have htext : (Datum.str "#\x7b\n").Holds sampleWorld.heap (.str ⟨0⟩) :=
      ⟨⟨0⟩, by decide, rfl, rfl⟩
    have hvalue : (Datum.array [.str "#\x7b\n", .int Int64.minValue, .range 1 (-3)]).Holds
        sampleWorld.heap (.array ⟨1⟩) :=
      ⟨⟨1⟩, by decide, ⟨_, _, htext, ⟨_, _, rfl, ⟨_, _, rfl, rfl, rfl⟩, rfl⟩, rfl⟩, rfl⟩
    exact .singleton (by decide) rfl trivial hkey hvalue
  · intro r hw e he
    cases hw with
    | self =>
      cases List.mem_singleton.1 he
      rfl
    | key he' hw =>
      cases List.mem_singleton.1 he'
      cases hw with | item hv hw =>
      cases List.mem_singleton.1 hv
      cases hw
    | value he' hw =>
      cases List.mem_singleton.1 he'
      cases hw with | item hv hw =>
      rcases List.mem_cons.1 hv with rfl | hv
      · cases hw
      rcases List.mem_cons.1 hv with rfl | hv
      · cases hw
      cases List.mem_singleton.1 hv
      cases hw

/-- A hash whose key `[1]` became `[1, 2]` after it was filed. -/
def changedWorld : World where
  heap := { Core.heap with
    lists := ⟨#[#[.int 1, .int 2]]⟩
    tables := ⟨#[{ entries := [(.array [.int 1], ⟨.array ⟨0⟩, .int 1⟩)] }]⟩ }

/-- What a hash with a changed key is shown as evaluates to a hash that is not equal to it. -/
theorem changed_key_not_equal :
    (Datum.hash [(.array [.int 1, .int 2], .int 1)]).Holds changedWorld.heap (.hash ⟨0⟩) ∧
      ∃ text w₁ u w₂, (interpreter 4).inspect (.hash ⟨0⟩) changedWorld = .ok text w₁ ∧
        (interpreter 4).runText text "main" w₁ = .ok u w₂ ∧
        w₂.heap.equal (.hash ⟨0⟩) u = false := by
  have hkey : (Datum.array [.int 1, .int 2]).Holds changedWorld.heap (.array ⟨0⟩) :=
    ⟨⟨0⟩, by decide, ⟨_, _, rfl, ⟨_, _, rfl, rfl, rfl⟩, rfl⟩, rfl⟩
  have hd : (Datum.hash [(.array [.int 1, .int 2], .int 1)]).Holds changedWorld.heap
      (.hash ⟨0⟩) :=
    .singleton (by decide) rfl trivial hkey rfl
  refine ⟨hd, ?_⟩
  obtain ⟨w₁, hshow, hgrow⟩ :=
    inspect_eq _ 4 (by decide) changedWorld _ rfl hd (by simp [changedWorld])
  -- The same data with their keys filed, so that there is a value to evaluate to.
  have hfiled : (Datum.hash [(.array [.int 1, .int 2], .int 1)]).FiledAs
      { lists := ⟨#[#[.int 1, .int 2]]⟩,
        tables := ⟨#[{ entries := [(.array [.int 1, .int 2], ⟨.array ⟨0⟩, .int 1⟩)] }]⟩ }
      (.hash ⟨0⟩) :=
    .singleton (by decide) rfl rfl
      ⟨⟨0⟩, by decide, ⟨_, _, rfl, ⟨_, _, rfl, rfl, rfl⟩, rfl⟩, rfl⟩ rfl
  obtain ⟨u, w₂, hrun, hgrow₂, r, hr, -, ⟨filed, e, more, rfl, -, -, hmore, hentries⟩, rfl⟩ :=
    runText_text (by decide) ⟨_, hfiled⟩ (n := 4) (by decide) "main" w₁
  refine ⟨_, w₁, _, w₂, hshow, hrun, ?_⟩
  cases hmore
  have hold : w₂.heap.table ⟨0⟩ = { entries := [(.array [.int 1], ⟨.array ⟨0⟩, .int 1⟩)] } :=
    (hgrow.heap.trans hgrow₂).table_eq (r := ⟨0⟩) (by decide)
  have hne : (⟨0⟩ : TableRef) ≠ r := by
    rintro rfl
    rw [hold] at hentries
    cases hentries
  have hpairs : ∃ n, w₂.heap.pairCount = n + 1 := by
    have : 0 < w₂.heap.tables.size * w₂.heap.tables.size := Nat.mul_pos (by omega) (by omega)
    exact ⟨w₂.heap.pairCount - 1, by unfold Heap.pairCount; omega⟩
  obtain ⟨n, hn⟩ := hpairs
  have hget : (w₂.heap.table r).get? (.array [.int 1]) = none := by
    unfold OrderedMap.get?
    rw [hentries]
    rfl
  unfold Heap.equal
  rw [hn]
  unfold Heap.equalWithin
  simp [hne, hold, hget, OrderedMap.size]

end Spinel
