import Mathlib.Logic.Function.Basic
import Spinel.Proofs.Heap.Records
import Spinel.Proofs.Run.Receivers

/-!
# Hashes follow their histories

A ledger keeps, beside a world, what was done to each of its hashes (`Ledger`). Hashes are written
to, deleted from, cleared, merged and made of pairs. A literal is a table that is written entry by
entry before it is on the heap, while its nodes are evaluated (`Interp.form_hash`). Whatever else
happens in between leaves the keys of all tables as they are (`Ledger.Step`). Then each hash lists
what its history says, and answers by that (`hashes_follow_histories`).
-/

namespace Spinel

open Run Tables

variable {w w' : World} {receiver other key value : Value} {block : Option Callable}
  {r s : TableRef} {past : History HashKey Value}

/-- A value that is a hash, or an object with one behind it. -/
structure Heap.IsHash (h : Heap) (v : Value) (r : TableRef) : Prop where
  ref : h.tableRef? v = some r
  live : r.index < h.tables.size

theorem Heap.IsHash.needTable (hr : w.heap.IsHash receiver r) :
    Run.needTable receiver w = .ok r w := needs_of_some hr.ref

theorem Heap.IsHash.needEntries (hr : w.heap.IsHash receiver r) :
    Tables.needEntries receiver w = .ok (w.heap.table r) w := bind_of_ok hr.needTable _

theorem Run.alloc_eq_ok {α : Type} {f : Heap → α × Heap} {a : α} (h : alloc f w = .ok a w') :
    a = (f w.heap).1 ∧ w' = { w with heap := (f w.heap).2 } := by
  obtain ⟨rfl, rfl⟩ := EStateM.Result.ok.inj h
  exact ⟨rfl, rfl⟩

namespace Tables

/-! ## What the methods do -/

/-- A value is stored, in the entry that is there or in a new one. -/
theorem exists_put (value : Value) (hr : r.index < w.heap.tables.size) (hc : w.heap.Closed)
    (hk : w.heap.HasText key) (ht : w.heap.Records past (w.heap.table r)) :
    ∃ w', put r key value w = .ok () w' ∧
      w.heap.Writes r (past ++ [.store (w.heap.key key) value]) w'.heap := by
  refine ⟨_, rfl, ?_⟩
  dsimp only
  split
  · next e he =>
    -- the entry keeps its key, which is filed where the new one would be
    have hmem := OrderedMap.get?_eq_some_iff.1 he
    exact Heap.writes_modifyTable hr hc (ht.insert (ht.hasText _ hmem) (ht.filed _ hmem))
  · have g := Heap.Retains.entryKey w.heap key
    have htables := w.heap.tables_entryKey key
    have htable : (w.heap.entryKey key).2.table r = w.heap.table r :=
      congrArg (·.get r.index) htables
    refine Heap.Writes.after (Heap.writes_modifyTable (htables ▸ hr) (g.closed hc) ?_) g htables
    rw [htable]
    exact (ht.later hc g).insert (Heap.hasText_entryKey hk) (Heap.key_entryKey key)

theorem exists_store (interp : Interp) (value : Value) (block : Option Callable)
    (hr : w.heap.IsHash receiver r) (hc : w.heap.Closed) (hk : w.heap.HasText key)
    (ht : w.heap.Records past (w.heap.table r)) :
    ∃ w', run interp .store ⟨receiver, [key, value], block⟩ w = .ok value w' ∧
      w.heap.Writes r (past ++ [.store (w.heap.key key) value]) w'.heap := by
  obtain ⟨w', hput, hw⟩ := exists_put value hr.live hc hk ht
  exact ⟨w', (bind_of_ok hr.needTable _).trans (bind_of_ok hput _), hw⟩

theorem exists_delete (interp : Interp) (key : Value) (block : Option Callable)
    (hr : w.heap.IsHash receiver r) (hc : w.heap.Closed)
    (ht : w.heap.Records past (w.heap.table r)) :
    ∃ w', run interp .delete ⟨receiver, [key], block⟩ w =
        .ok (.ofOption ((listing (w.heap.table r)).lookup (w.heap.key key))) w' ∧
      w.heap.Writes r (past ++ [.remove (w.heap.key key)]) w'.heap := by
  have hw := Heap.writes_modifyTable (f := (·.erase (w.heap.key key))) hr.live hc (ht.erase _)
  rw [← lookUp_eq]
  exact ⟨_, bind_of_ok hr.needTable _, hw⟩

theorem exists_clear (interp : Interp) (past : History HashKey Value) (args : List Value)
    (block : Option Callable) (hr : w.heap.IsHash receiver r) (hc : w.heap.Closed) :
    ∃ w', run interp .clear ⟨receiver, args, block⟩ w = .ok receiver w' ∧
      w.heap.Writes r (past ++ [.clear]) w'.heap := by
  have hcleared : w.heap.Records (past ++ [.clear]) .empty := .of_empty .clear
  have hw := Heap.writes_modifyTable (f := fun _ => .empty) hr.live hc hcleared
  exact ⟨_, bind_of_ok hr.needTable _, hw⟩

theorem exists_newHash {pairs : List (Value × Value)} (hc : w.heap.Closed)
    (hp : ∀ p ∈ pairs, w.heap.HasText p.1) :
    ∃ w', newHash pairs w = .ok (.hash ⟨w.heap.tables.size⟩) w' ∧
      w.heap.Writes ⟨w.heap.tables.size⟩ (.ofPairs (w.heap.filing pairs)) w'.heap := by
  obtain ⟨g, ht⟩ := Heap.Records.insertPairs (.of_empty .nil) hc hp
  have htables := w.heap.tables_insertPairs .empty pairs
  have hw := (Heap.writes_newTable (g.closed hc) ht).after g htables
  rw [htables] at hw
  refine ⟨{ w with heap := ((w.heap.insertPairs .empty pairs).2.newTable _).2 }, ?_, hw⟩
  exact congrArg (fun n => EStateM.Result.ok (Value.hash ⟨n⟩) _) (congrArg Store.size htables)

/-- The new hash holds the pairs of the receiver and then those of the other. -/
theorem exists_merge (interp : Interp) (block : Option Callable) (hr : w.heap.IsHash receiver r)
    (hs : w.heap.IsHash other s) (hc : w.heap.Closed) {past' : History HashKey Value}
    (ht : w.heap.Records past (w.heap.table r)) (ht' : w.heap.Records past' (w.heap.table s)) :
    ∃ w', run interp .merge ⟨receiver, [other], block⟩ w = .ok (.hash ⟨w.heap.tables.size⟩) w' ∧
      w.heap.Writes ⟨w.heap.tables.size⟩
        (past ++ .ofPairs (listing (w.heap.table s))) w'.heap := by
  have hp : ∀ p ∈ pairs (w.heap.table r) ++ pairs (w.heap.table s), w.heap.HasText p.1 :=
    List.forall_mem_append.2 ⟨ht.hasText_pairs, ht'.hasText_pairs⟩
  obtain ⟨w', hnew, hw⟩ := exists_newHash hc hp
  have hfiling : w.heap.filing (pairs (w.heap.table r) ++ pairs (w.heap.table s)) =
      listing (w.heap.table r) ++ listing (w.heap.table s) := by
    rw [← ht.filing_pairs, ← ht'.filing_pairs]
    exact List.map_append
  rw [hfiling] at hw
  refine ⟨w', ?_, { hw with records := { hw.records with lists := ?_ } }⟩
  · exact (bind_of_ok hs.needTable _).trans ((bind_of_ok hr.needTable _).trans hnew)
  · exact ht.lists.extend hw.records.lists

/-! ## What a hash answers -/

/-- A key and its value, as an array. -/
def pairArray (p : Value × Value) : Run Value := newList [p.1, p.2]

/-- Call a block with a key and its value, as an array. -/
def yieldPair (interp : Interp) (receiver : Value) (block : Callable) (p : Value × Value) :
    Run Value := do
  let pair ← pairArray p
  interp.yieldTo block receiver [pair]

theorem pairArrays_eq (ps : List (Value × Value)) : pairArrays ps = ps.mapM pairArray := by
  induction ps with
  | nil => rfl
  | cons p rest ih =>
    rw [pairArrays, List.mapM_cons, ih]
    rfl

theorem overPairs_eq (interp : Interp) (receiver : Value) (block : Callable)
    (ps : List (Value × Value)) :
    overPairs interp receiver block ps = ps.mapM (yieldPair interp receiver block) := by
  induction ps with
  | nil => rfl
  | cons p rest ih =>
    rw [overPairs, List.mapM_cons, ih]
    simp only [yieldPair, pairArray, bind_assoc]

/-- What a hash answers if keys and values are to be listed. The keys are given as values, which
are filed under what is to be listed. -/
structure Answers (interp : Interp) (w : World) (receiver : Value)
    (listed : List (HashKey × Value)) : Prop where
  lists : ∃ ps : List (Value × Value), w.heap.filing ps = listed ∧
    (∀ block, run interp .keys ⟨receiver, [], block⟩ w = newList (ps.map (·.1)) w) ∧
    (∀ block, run interp .values ⟨receiver, [], block⟩ w = newList (ps.map (·.2)) w) ∧
    (∀ block, run interp .toArray ⟨receiver, [], block⟩ w =
      (ps.mapM pairArray >>= newList) w) ∧
    ∀ block, run interp .each ⟨receiver, [], some block⟩ w =
      (ps.mapM (yieldPair interp receiver block) >>= fun _ => pure receiver) w
  index : ∀ key block, run interp .index ⟨receiver, [key], block⟩ w =
    .ok (.ofOption (listed.lookup (w.heap.key key))) w
  hasKey : ∀ key block, run interp .hasKey ⟨receiver, [key], block⟩ w =
    .ok (.bool ((listed.map (·.1)).contains (w.heap.key key))) w
  size : ∀ block, run interp .size ⟨receiver, [], block⟩ w = .ok (.int (.ofNat listed.length)) w

theorem answers_of_records (interp : Interp) (hr : w.heap.IsHash receiver r)
    (ht : w.heap.Records past (w.heap.table r)) :
    Answers interp w receiver (listing (w.heap.table r)) where
  lists := by
    refine ⟨pairs (w.heap.table r), ht.filing_pairs, fun block => ?_, fun block => ?_,
      fun block => ?_, fun block => ?_⟩
    · have hkeys : (pairs (w.heap.table r)).map (·.1) = (w.heap.table r).values.map (·.key) :=
        List.map_map
      rw [hkeys]
      exact bind_of_ok hr.needEntries _
    · have hvalues : (pairs (w.heap.table r)).map (·.2) = (w.heap.table r).values.map (·.value) :=
        List.map_map
      rw [hvalues]
      exact bind_of_ok hr.needEntries _
    · rw [← pairArrays_eq]
      exact bind_of_ok hr.needEntries _
    · rw [← overPairs_eq]
      have hanswers : answers interp ⟨receiver, [], some block⟩ w =
          overPairs interp receiver block (pairs (w.heap.table r)) w :=
        (bind_of_ok rfl _).trans (bind_of_ok hr.needTable _)
      change (answers interp ⟨receiver, [], some block⟩ >>= fun _ => pure receiver) w = _
      rw [bind_apply, hanswers, ← bind_apply]
  index key block := by
    rw [← lookUp_eq]
    exact bind_of_ok hr.needEntries _
  hasKey key block := by
    have hcontains : (w.heap.table r).contains (w.heap.key key) =
        ((listing (w.heap.table r)).map (·.1)).contains (w.heap.key key) := by
      rw [Bool.eq_iff_iff, OrderedMap.contains_iff, List.contains_iff_mem, map_fst_listing]
    rw [← hcontains]
    exact bind_of_ok hr.needEntries _
  size block := by
    have hlength : (listing (w.heap.table r)).length = (w.heap.table r).size := List.length_map _
    rw [hlength]
    exact bind_of_ok hr.needEntries _

/-! ## Three ways to write pairs down -/

theorem exists_stores (interp : Interp) (hr : w.heap.IsHash receiver r) (hc : w.heap.Closed)
    {ps : List (Value × Value)} (hp : ∀ p ∈ ps, w.heap.HasText p.1)
    (ht : w.heap.Records past (w.heap.table r)) :
    ∃ w', ps.mapM (fun p => run interp .store ⟨receiver, [p.1, p.2], none⟩) w =
        .ok (ps.map (·.2)) w' ∧
      w'.heap.Records (past ++ .ofPairs (w.heap.filing ps)) (w'.heap.table r) := by
  induction ps generalizing w past with
  | nil => exact ⟨w, rfl, (List.append_nil past).symm ▸ ht⟩
  | cons p rest ih =>
    obtain ⟨hkey, hrest⟩ := List.forall_mem_cons.1 hp
    obtain ⟨w₁, hrun, hw⟩ := exists_store interp p.2 none hr hc hkey ht
    have g := hw.retains
    obtain ⟨w₂, hall, ht₂⟩ := ih ⟨(g.tableRef?_eq _).trans hr.ref, hw.live⟩ (g.closed hc)
      (fun q hq => g.hasText (hrest q hq)) hw.records
    rw [g.filing_eq hc hrest, List.append_assoc] at ht₂
    refine ⟨w₂, ?_, ht₂⟩
    rw [List.mapM_cons]
    exact (bind_of_ok hrun _).trans (bind_of_ok hall _)

/-- Adding pairs to a table that is being written down, one after another, is adding all of
them. -/
theorem foldlM_insertEntry (ps : List (Value × Value)) (t : Table) (w : World) :
    ps.foldlM (fun t p => alloc (·.insertEntry t p.1 p.2)) t w = alloc (·.insertPairs t ps) w := by
  induction ps generalizing t w with
  | nil => rfl
  | cons p rest ih =>
    rw [List.foldlM_cons]
    exact (bind_of_ok rfl _).trans (ih _ _)

end Tables

/-! ## Literals -/

/-- The next entry of a literal. -/
def Interp.addEntry (interp : Interp) (scope : ScopeRef) (t : Table) (nodes : Node × Node) :
    Run Table := do
  let key ← interp (.eval scope nodes.1)
  let value ← interp (.eval scope nodes.2)
  alloc (·.insertEntry t key value)

theorem Interp.hashEntries_eq (interp : Interp) (scope : ScopeRef) (t : Table)
    (nodes : List (Node × Node)) :
    interp.hashEntries scope t nodes = nodes.foldlM (interp.addEntry scope) t := by
  induction nodes generalizing t with
  | nil => rfl
  | cons p rest ih =>
    rw [hashEntries, List.foldlM_cons]
    simp only [addEntry, bind_assoc, ih]

/-- A literal adds its entries to a table as they are evaluated, and then makes a hash of it. -/
theorem Interp.form_hash (interp : Interp) (n : Nat) (scope : ScopeRef) {node : Node}
    {nodes : List (Node × Node)} (hform : node.form = .hash nodes) :
    interp.form n scope node = do
      let t ← nodes.foldlM (interp.addEntry scope) .empty
      return .hash (← alloc (·.newTable t)) := by
  unfold form
  rw [hform, ← hashEntries_eq]

/-! ## Histories of all hashes -/

/-- A world with what was done to each of its hashes so far, and the hashes that are still being
written down, innermost first, with what was done to them. -/
structure Ledger where
  world : World
  past : TableRef → History HashKey Value := fun _ => []
  drafts : List (Table × History HashKey Value) := []

namespace Ledger

variable {interp : Interp} {L L' : Ledger}

/-- A hash is written or added. -/
def noting (L : Ledger) (w : World) (r : TableRef) (past : History HashKey Value) : Ledger :=
  { L with world := w, past := Function.update L.past r past }

/-- The tables on the heap, and those that are not there yet. -/
def Has (L : Ledger) (t : Table) : Prop :=
  (∃ r : TableRef, r.index < L.world.heap.tables.size ∧ L.world.heap.table r = t) ∨
    t ∈ L.drafts.map (·.1)

/-- One thing that happens to the hashes of a world, or happens elsewhere and leaves the keys of
all hashes as they are. -/
inductive Step (interp : Interp) : Ledger → Ledger → Prop
  | store {L receiver key value block r v w} (hr : L.world.heap.IsHash receiver r)
      (hk : L.world.heap.HasText key)
      (hrun : Tables.run interp .store ⟨receiver, [key, value], block⟩ L.world = .ok v w) :
      Step interp L (L.noting w r (L.past r ++ [.store (L.world.heap.key key) value]))
  | delete {L receiver key block r v w} (hr : L.world.heap.IsHash receiver r)
      (hrun : Tables.run interp .delete ⟨receiver, [key], block⟩ L.world = .ok v w) :
      Step interp L (L.noting w r (L.past r ++ [.remove (L.world.heap.key key)]))
  | clear {L receiver args block r v w} (hr : L.world.heap.IsHash receiver r)
      (hrun : Tables.run interp .clear ⟨receiver, args, block⟩ L.world = .ok v w) :
      Step interp L (L.noting w r (L.past r ++ [.clear]))
  | merge {L receiver other block r s listed new w} (hr : L.world.heap.IsHash receiver r)
      (hs : L.world.heap.IsHash other s) (hlisted : (L.past s).Lists listed)
      (hrun : Tables.run interp .merge ⟨receiver, [other], block⟩ L.world = .ok (.hash new) w) :
      Step interp L (L.noting w new (L.past r ++ .ofPairs listed))
  | ofPairs {L pairs new w} (hp : ∀ p ∈ pairs, L.world.heap.HasText p.1)
      (hrun : newHash pairs L.world = .ok (.hash new) w) :
      Step interp L (L.noting w new (.ofPairs (L.world.heap.filing pairs)))
  /-- A literal is begun. -/
  | begin {L : Ledger} : Step interp L { L with drafts := (.empty, []) :: L.drafts }
  | entry {L key value t t' past rest w} (hd : L.drafts = (t, past) :: rest)
      (hk : L.world.heap.HasText key)
      (hrun : alloc (·.insertEntry t key value) L.world = .ok t' w) :
      Step interp L { L with
        world := w
        drafts := (t', past ++ [.store (L.world.heap.key key) value]) :: rest }
  | finish {L t past rest new w} (hd : L.drafts = (t, past) :: rest)
      (hrun : alloc (·.newTable t) L.world = .ok new w) :
      Step interp L { L.noting w new past with drafts := rest }
  /-- A literal is given up, as one of its nodes failed. -/
  | abandon {L d rest} (hd : L.drafts = d :: rest) : Step interp L { L with drafts := rest }
  | elsewhere {L : Ledger} {w : World} (htables : w.heap.tables = L.world.heap.tables)
      (htexts : L.world.heap.texts.size ≤ w.heap.texts.size) (hc : w.heap.Closed)
      (hkeys : ∀ t, L.Has t → ∀ e ∈ t.entries, w.heap.key e.2.key = L.world.heap.key e.2.key) :
      Step interp L { L with world := w }

/-- All hashes are what their histories say. -/
structure Kept (L : Ledger) : Prop where
  closed : L.world.heap.Closed
  tables : ∀ r : TableRef, r.index < L.world.heap.tables.size →
    L.world.heap.Records (L.past r) (L.world.heap.table r)
  drafts : ∀ d ∈ L.drafts, L.world.heap.Records d.2 d.1

namespace Kept

theorem noting (hL : L.Kept) (hw : L.world.heap.Writes r past w.heap) :
    (L.noting w r past).Kept where
  closed := hw.retains.closed hL.closed
  tables s hs := by
    by_cases heq : s = r
    · subst heq
      have hpast : (L.noting w s past).past s = past := Function.update_self ..
      exact hpast.symm ▸ hw.records
    · have hpast : (L.noting w r past).past s = L.past s := Function.update_of_ne heq ..
      obtain ⟨hlt, hsame⟩ := hw.others s hs heq
      have hlater := (hL.tables s hlt).later hL.closed hw.retains
      rw [← hsame, ← hpast] at hlater
      exact hlater
  drafts d hd := (hL.drafts d hd).later hL.closed hw.retains

/-- No hash is written, and those that are being written down change at most. -/
theorem unwritten (hL : L.Kept) (hc : w.heap.Closed)
    (htables : w.heap.tables = L.world.heap.tables)
    (hlater : ∀ t past, L.Has t → L.world.heap.Records past t → w.heap.Records past t)
    {drafts : List (Table × History HashKey Value)} (hd : ∀ d ∈ drafts, w.heap.Records d.2 d.1) :
    Kept { L with world := w, drafts := drafts } where
  closed := hc
  tables s hs := by
    have htable : w.heap.table s = L.world.heap.table s := congrArg (·.get s.index) htables
    have hlive : s.index < L.world.heap.tables.size := htables ▸ hs
    exact htable.symm ▸ hlater _ _ (.inl ⟨s, hlive, rfl⟩) (hL.tables s hlive)
  drafts := hd

/-- What happens keeps all hashes what their histories say. -/
theorem step (hL : L.Kept) (hstep : Step interp L L') : L'.Kept := by
  cases hstep with
  | store hr hk hrun =>
    obtain ⟨w', hrun', hw⟩ := exists_store interp _ _ hr hL.closed hk (hL.tables _ hr.live)
    obtain ⟨-, rfl⟩ := EStateM.Result.ok.inj (hrun.symm.trans hrun')
    exact hL.noting hw
  | delete hr hrun =>
    obtain ⟨w', hrun', hw⟩ := exists_delete interp _ _ hr hL.closed (hL.tables _ hr.live)
    obtain ⟨-, rfl⟩ := EStateM.Result.ok.inj (hrun.symm.trans hrun')
    exact hL.noting hw
  | clear hr hrun =>
    obtain ⟨w', hrun', hw⟩ := exists_clear interp _ _ _ hr hL.closed
    obtain ⟨-, rfl⟩ := EStateM.Result.ok.inj (hrun.symm.trans hrun')
    exact hL.noting hw
  | merge hr hs hlisted hrun =>
    have hother := hL.tables _ hs.live
    obtain ⟨w', hrun', hw⟩ :=
      exists_merge interp _ hr hs hL.closed (hL.tables _ hr.live) hother
    obtain ⟨hnew, rfl⟩ := EStateM.Result.ok.inj (hrun.symm.trans hrun')
    obtain rfl := Value.hash.inj hnew
    rw [hlisted.unique hother.lists]
    exact hL.noting hw
  | ofPairs hp hrun =>
    obtain ⟨w', hrun', hw⟩ := exists_newHash hL.closed hp
    obtain ⟨hnew, rfl⟩ := EStateM.Result.ok.inj (hrun.symm.trans hrun')
    obtain rfl := Value.hash.inj hnew
    exact hL.noting hw
  | begin => exact { hL with drafts := List.forall_mem_cons.2 ⟨.of_empty .nil, hL.drafts⟩ }
  | @entry key value t _ _ _ _ hd hk hrun =>
    obtain ⟨rfl, rfl⟩ := alloc_eq_ok hrun
    obtain ⟨hdraft, hrest⟩ := List.forall_mem_cons.1 (hd ▸ hL.drafts)
    have g : L.world.heap.Retains (L.world.heap.insertEntry t key value).2 := .entryKey _ key
    exact hL.unwritten (g.closed hL.closed) (Heap.tables_entryKey _ key)
      (fun _ _ _ ht => ht.later hL.closed g) (List.forall_mem_cons.2
        ⟨hdraft.insertEntry hL.closed hk, fun d hmem => (hrest d hmem).later hL.closed g⟩)
  | finish hd hrun =>
    obtain ⟨rfl, rfl⟩ := alloc_eq_ok hrun
    obtain ⟨hdraft, hrest⟩ := List.forall_mem_cons.1 (hd ▸ hL.drafts)
    have hw := Heap.writes_newTable hL.closed hdraft
    exact { hL.noting hw with
      drafts := fun d hmem => (hrest d hmem).later hL.closed hw.retains }
  | abandon hd =>
    exact { hL with drafts := fun d hmem => hL.drafts d (hd ▸ List.mem_cons_of_mem _ hmem) }
  | elsewhere htables htexts hc hkeys =>
    refine hL.unwritten hc htables (fun t _ hmem ht => ht.of_keys htexts (hkeys t hmem)) ?_
    exact fun d hmem =>
      (hL.drafts d hmem).of_keys htexts (hkeys _ (.inr (List.mem_map_of_mem hmem)))

theorem steps (hL : L.Kept) (hsteps : Relation.ReflTransGen (Step interp) L L') : L'.Kept := by
  induction hsteps with
  | refl => exact hL
  | tail _ hstep ih => exact ih.step hstep

theorem start (hnone : w.heap.tables.size = 0) (hc : w.heap.Closed) : Kept { world := w } where
  closed := hc
  tables r hr := absurd hr (hnone ▸ Nat.not_lt_zero r.index)
  drafts _ hd := by cases hd

end Kept

end Ledger

/-! ## Storing, deleting, merging and writing down -/

namespace Ledger.Kept

variable {interp : Interp} {L : Ledger}

theorem records (hL : L.Kept) (hr : L.world.heap.IsHash receiver r) :
    L.world.heap.Records (L.past r) (L.world.heap.table r) := hL.tables r hr.live

/-- Merging gives a new hash, as if the pairs of the other were stored into a copy of the
receiver. -/
theorem exists_merge (hL : L.Kept) (block : Option Callable) (hr : L.world.heap.IsHash receiver r)
    (hs : L.world.heap.IsHash other s) :
    ∃ new w', Tables.run interp .merge ⟨receiver, [other], block⟩ L.world = .ok (.hash new) w' ∧
      (History.ofPairs (listing (L.world.heap.table r)) ++
        .ofPairs (listing (L.world.heap.table s))).Lists (listing (w'.heap.table new)) ∧
      ∀ q : TableRef, q.index < L.world.heap.tables.size →
        q ≠ new ∧ w'.heap.table q = L.world.heap.table q := by
  have hcopy : L.world.heap.Records (.ofPairs (listing (L.world.heap.table r)))
      (L.world.heap.table r) :=
    { hL.records hr with lists := .ofPairs (hL.records hr).lists.nodup }
  obtain ⟨w', hrun, hw⟩ := Tables.exists_merge interp block hr hs hL.closed hcopy (hL.records hs)
  refine ⟨_, w', hrun, hw.records.lists, fun q hq => ?_⟩
  have hne : q ≠ ⟨L.world.heap.tables.size⟩ := fun heq => Nat.lt_irrefl _ (heq ▸ hq)
  exact ⟨hne, (hw.others q (Nat.lt_of_lt_of_le hq hw.size_le) hne).2⟩

/-- Pairs are listed alike whether they are stored in an empty hash one after another, made a hash
all at once, or added to a literal. -/
theorem exists_pairs (hL : L.Kept) (hr : L.world.heap.IsHash receiver r)
    (hempty : listing (L.world.heap.table r) = []) {ps : List (Value × Value)}
    (hp : ∀ p ∈ ps, L.world.heap.HasText p.1) :
    ∃ listed, (History.ofPairs (L.world.heap.filing ps)).Lists listed ∧
      (∃ w', ps.mapM (fun p => Tables.run interp .store ⟨receiver, [p.1, p.2], none⟩) L.world =
          .ok (ps.map (·.2)) w' ∧ listing (w'.heap.table r) = listed) ∧
      (∃ new w', newHash ps L.world = .ok (.hash new) w' ∧
        listing (w'.heap.table new) = listed) ∧
      ∃ t w', ps.foldlM (fun t p => alloc (·.insertEntry t p.1 p.2)) .empty L.world = .ok t w' ∧
        listing t = listed := by
  have hfresh : L.world.heap.Records [] (L.world.heap.table r) :=
    { hL.records hr with lists := hempty ▸ .nil }
  obtain ⟨w₁, hstores, hstored⟩ := exists_stores interp hr hL.closed hp hfresh
  obtain ⟨w₂, hnew, hw⟩ := exists_newHash hL.closed hp
  have hentries := (Heap.Records.insertPairs (.of_empty .nil) hL.closed hp).2
  exact ⟨_, hw.records.lists, ⟨w₁, hstores, hstored.lists.unique hw.records.lists⟩,
    ⟨_, w₂, hnew, rfl⟩, _, _, foldlM_insertEntry ps .empty L.world,
    hentries.lists.unique hw.records.lists⟩

/-! ### Going on -/

theorem isHash_noting (hw : L.world.heap.Writes r past w.heap)
    (hr : L.world.heap.tableRef? receiver = some r) :
    (L.noting w r past).world.heap.IsHash receiver r ∧ (L.noting w r past).past r = past :=
  ⟨⟨(hw.retains.tableRef?_eq receiver).trans hr, hw.live⟩, Function.update_self ..⟩

theorem exists_storing (hL : L.Kept) (interp : Interp) (key value : Value)
    (hr : L.world.heap.IsHash receiver r) (hk : L.world.heap.HasText key) :
    ∃ L', Step interp L L' ∧ L'.world.heap.IsHash receiver r ∧
      L'.past r = L.past r ++ [.store (L.world.heap.key key) value] := by
  obtain ⟨w', hrun, hw⟩ := exists_store interp value none hr hL.closed hk (hL.records hr)
  exact ⟨_, .store hr hk hrun, isHash_noting hw hr.ref⟩

theorem exists_deleting (hL : L.Kept) (interp : Interp) (key : Value)
    (hr : L.world.heap.IsHash receiver r) :
    ∃ L', Step interp L L' ∧ L'.world.heap.IsHash receiver r ∧
      L'.past r = L.past r ++ [.remove (L.world.heap.key key)] := by
  obtain ⟨w', hrun, hw⟩ := exists_delete interp key none hr hL.closed (hL.records hr)
  exact ⟨_, .delete hr hrun, isHash_noting hw hr.ref⟩

theorem exists_making (hL : L.Kept) (interp : Interp) {ps : List (Value × Value)}
    (hp : ∀ p ∈ ps, L.world.heap.HasText p.1) :
    ∃ L' r, Step interp L L' ∧ L'.world.heap.IsHash (.hash r) r ∧
      L'.past r = .ofPairs (L.world.heap.filing ps) := by
  obtain ⟨w', hrun, hw⟩ := exists_newHash hL.closed hp
  exact ⟨_, _, .ofPairs hp hrun, isHash_noting hw rfl⟩

end Ledger.Kept

/-- However hashes are written, deleted from, cleared, merged and written down as literals while
their keys stay as they are, each lists what its history says: all keys once, in the order in which
they were first stored since they were last deleted, with the values that were stored last. -/
theorem hashes_follow_histories (interp : Interp) (w : World) (hnone : w.heap.tables.size = 0)
    (hc : w.heap.Closed) (L : Ledger)
    (hsteps : Relation.ReflTransGen (Ledger.Step interp) { world := w } L) :
    (∀ receiver r, L.world.heap.IsHash receiver r →
      (L.past r).Lists (listing (L.world.heap.table r)) ∧
        Answers interp L.world receiver (listing (L.world.heap.table r))) ∧
    (∀ receiver r block, L.world.heap.IsHash receiver r →
      (∀ key value, L.world.heap.HasText key → ∃ w',
        Tables.run interp .store ⟨receiver, [key, value], block⟩ L.world = .ok value w') ∧
      (∀ key, ∃ w', Tables.run interp .delete ⟨receiver, [key], block⟩ L.world =
        .ok (.ofOption ((listing (L.world.heap.table r)).lookup (L.world.heap.key key))) w') ∧
      ∃ w', Tables.run interp .clear ⟨receiver, [], block⟩ L.world = .ok receiver w') ∧
    (∀ receiver r other s block, L.world.heap.IsHash receiver r → L.world.heap.IsHash other s →
      ∃ new w', Tables.run interp .merge ⟨receiver, [other], block⟩ L.world = .ok (.hash new) w' ∧
        (History.ofPairs (listing (L.world.heap.table r)) ++
          .ofPairs (listing (L.world.heap.table s))).Lists (listing (w'.heap.table new)) ∧
        ∀ q : TableRef, q.index < L.world.heap.tables.size →
          q ≠ new ∧ w'.heap.table q = L.world.heap.table q) ∧
    (∀ receiver r, L.world.heap.IsHash receiver r → listing (L.world.heap.table r) = [] →
      ∀ ps : List (Value × Value), (∀ p ∈ ps, L.world.heap.HasText p.1) →
        ∃ listed, (History.ofPairs (L.world.heap.filing ps)).Lists listed ∧
          (∃ w', ps.mapM (fun p => Tables.run interp .store ⟨receiver, [p.1, p.2], none⟩) L.world =
            .ok (ps.map (·.2)) w' ∧ listing (w'.heap.table r) = listed) ∧
          (∃ new w', newHash ps L.world = .ok (.hash new) w' ∧
            listing (w'.heap.table new) = listed) ∧
          ∃ t w', ps.foldlM (fun t p => alloc (·.insertEntry t p.1 p.2)) .empty L.world = .ok t w' ∧
            listing t = listed) ∧
    ∀ n scope node nodes, node.form = .hash nodes → interp.form n scope node = do
      let t ← nodes.foldlM (interp.addEntry scope) .empty
      return .hash (← alloc (·.newTable t)) := by
  have hL : L.Kept := (Ledger.Kept.start hnone hc).steps hsteps
  refine ⟨fun receiver r hr => ?_, fun receiver r block hr => ⟨fun key value hk => ?_,
    fun key => ?_, ?_⟩, fun receiver r other s block hr hs => hL.exists_merge block hr hs,
    fun receiver r hr hempty ps hp => hL.exists_pairs hr hempty hp,
    fun n scope node nodes hform => interp.form_hash n scope hform⟩
  · exact ⟨(hL.records hr).lists, answers_of_records interp hr (hL.records hr)⟩
  · obtain ⟨w', hrun, -⟩ := exists_store interp value block hr hL.closed hk (hL.records hr)
    exact ⟨w', hrun⟩
  · obtain ⟨w', hrun, -⟩ := exists_delete interp key block hr hL.closed (hL.records hr)
    exact ⟨w', hrun⟩
  · obtain ⟨w', hrun, -⟩ := exists_clear interp [] [] block hr hL.closed
    exact ⟨w', hrun⟩

/-- A key that was deleted and stored again comes after the one that stayed. -/
theorem hashes_follow_histories_stored_again :
    ∃ L receiver r, Relation.ReflTransGen (Ledger.Step Session.evaluator) { world := {} } L ∧
      L.world.heap.IsHash receiver r ∧
      L.past r = [.store (.symbol "a") (.int 1), .store (.symbol "b") (.int 2),
        .remove (.symbol "a"), .store (.symbol "a") (.int 3)] ∧
      Answers Session.evaluator L.world receiver
        [(.symbol "b", .int 2), (.symbol "a", .int 3)] := by
  have hkey : ∀ (h : Heap) (s : String), h.key (.symbol s) = .symbol s := by
    intro h s
    unfold Heap.key Heap.keyWithin
    rfl
  have hc : ({} : World).heap.Closed := by
    intro r v hv
    have hlist : ({} : World).heap.list r = #[] := Store.get_of_size_le (Nat.zero_le _)
    rw [hlist] at hv
    cases hv
  have hp : ∀ p ∈ [(Value.symbol "a", Value.int 1), (.symbol "b", .int 2)],
      ({} : World).heap.HasText p.1 := by simp [Heap.HasText]
  have hL₀ : Ledger.Kept { world := {} } := .start rfl hc
  obtain ⟨L₁, r, hmade, hr₁, hpast₁⟩ := hL₀.exists_making Session.evaluator hp
  have hL₁ := hL₀.step hmade
  obtain ⟨L₂, hdeleted, hr₂, hpast₂⟩ := hL₁.exists_deleting Session.evaluator (.symbol "a") hr₁
  have hL₂ := hL₁.step hdeleted
  obtain ⟨L₃, hstored, hr₃, hpast₃⟩ :=
    hL₂.exists_storing Session.evaluator (.symbol "a") (.int 3) hr₂ trivial
  have hsteps := ((Relation.ReflTransGen.single hmade).tail hdeleted).tail hstored
  have hpast : L₃.past r = [.store (.symbol "a") (.int 1), .store (.symbol "b") (.int 2),
      .remove (.symbol "a"), .store (.symbol "a") (.int 3)] := by
    rw [hpast₃, hpast₂, hpast₁, hkey, hkey]
    simp only [Heap.filing, List.map_cons, List.map_nil, hkey]
    rfl
  obtain ⟨hanswers, -⟩ := hashes_follow_histories Session.evaluator {} rfl hc L₃ hsteps
  obtain ⟨hlists, hanswers⟩ := hanswers _ _ hr₃
  rw [hpast] at hlists
  have hlisted := (((History.Lists.nil.store (HashKey.symbol "a") (Value.int 1)).store (.symbol "b")
    (.int 2)).remove (.symbol "a")).store (.symbol "a") (.int 3)
  rw [hlists.unique hlisted] at hanswers
  exact ⟨L₃, _, r, hsteps, hr₃, hpast, hanswers⟩

end Spinel
