import Spinel.Proofs.Run.Receivers

/-!
# Writing into arrays

A value that is written at an index is read back there through every value that stands for the
array, all other items stay, and places that come into being before it hold `nil`. An index before
the beginning and a length beyond the limit of the heap are refused, with everything as it was
(`array_store_reads_back`).
-/

namespace Spinel

open Run

/-! ## Items -/

namespace Lists

/-- The items `items'` are `items` with a value at a place, and `nil` at the new places before it.
-/
structure WrittenAt (items : Array Value) (place : Nat) (v : Value) (items' : Array Value) :
    Prop where
  size : items'.size = max items.size (place + 1)
  here : items'[place]? = some v
  old : ∀ k, k < items.size → k ≠ place → items'[k]? = items[k]?
  new : ∀ k, items.size ≤ k → k < place → items'[k]? = some .nil

theorem writtenAt_written (items : Array Value) (place : Nat) (v : Value) :
    WrittenAt items place v (written items place v) := by
  unfold written
  by_cases hin : place < items.size
  · rw [if_pos hin]
    constructor
    · rw [Array.size_setIfInBounds]
      omega
    · rw [Array.getElem?_setIfInBounds_self, if_pos hin]
    · intro k _ hne
      rw [Array.getElem?_setIfInBounds_ne (Ne.symm hne)]
    · intro k hold hnew
      omega
  · rw [if_neg hin]
    -- The places before the one that is written are those of the items and of the padding.
    have hsize : (items ++ Array.replicate (place - items.size) Value.nil).size = place := by
      rw [Array.size_append, Array.size_replicate]
      omega
    have hbefore : ∀ k, k < place →
        ((items ++ Array.replicate (place - items.size) Value.nil).push v)[k]? =
          (items ++ Array.replicate (place - items.size) Value.nil)[k]? := by
      intro k hk
      rw [Array.getElem?_push, if_neg (by omega)]
    constructor
    · rw [Array.size_push, hsize]
      omega
    · rw [Array.getElem?_push, if_pos hsize.symm]
    · intro k hk _
      rw [hbefore k (by omega), Array.getElem?_append, if_pos hk]
    · intro k hold hnew
      rw [hbefore k hnew, Array.getElem?_append, if_neg (by omega), Array.getElem?_replicate,
        if_pos (by omega)]

/-- The place that was meant before a write is the one that is meant after it. -/
theorem WrittenAt.index?_eq {items items' : Array Value} {place : Nat} {v : Value} {i : Int}
    (h : WrittenAt items place v items') (hplace : Slice.fromEnd i items.size = place) :
    Slice.index? i items'.size = some place := by
  have hsize := h.size
  have hafter : Slice.fromEnd i items'.size = place := by
    unfold Slice.fromEnd at hplace ⊢
    split
    · next hneg =>
      rw [if_pos hneg] at hplace
      omega
    · next hpos => rwa [if_neg hpos] at hplace
  unfold Slice.index?
  dsimp only
  rw [hafter, if_pos (by omega), Int.toNat_natCast]

end Lists

/-! ## Arrays -/

/-- The second state is the first one but for the items of an array. -/
structure World.SameButItems (r : ListRef) (w w' : World) : Prop where
  count : w'.heap.lists.size = w.heap.lists.size
  others : ∀ r', r' ≠ r → w'.heap.list r' = w.heap.list r'
  rest : w' = { w with heap := { w.heap with lists := w'.heap.lists } }

theorem World.sameButItems_modifyList (w : World) (r : ListRef) (f : Array Value → Array Value) :
    w.SameButItems r { w with heap := w.heap.modifyList r f } where
  count := Store.size_modify _ _ _
  others _ hne := Store.get_modify_of_ne (fun h => hne (congrArg ListRef.mk h)) f
  rest := rfl

variable {w : World} {receiver v : Value} {r : ListRef} {i : Int64}

theorem Run.checkSize_apply (size : Nat) (w : World) :
    checkSize size w =
      if w.heap.limit < size then .error (.failed { fault := .sizeTooBig }) w else .ok () w := by
  change (if w.heap.limit < size then fail .sizeTooBig else pure () : Run Unit) w = _
  split <;> rfl

namespace Lists

/-- All that writing at an index can do. -/
theorem storeAt_apply {place : Int}
    (hplace : Slice.fromEnd i.toInt (w.heap.list r).size = place) :
    storeAt r i v w =
      if place < 0 then .error (.failed { fault := .indexTooSmall i }) w
      else if (w.heap.list r).size ≤ place ∧ w.heap.limit < place + 1 then
        .error (.failed { fault := .sizeTooBig }) w
      else .ok v { w with heap := w.heap.modifyList r (written · place.toNat v) } := by
  subst hplace
  refine (bind_of_ok (show reading (fun h => (h.list r).size) w = _ from rfl) _).trans ?_
  dsimp only
  generalize Slice.fromEnd i.toInt (w.heap.list r).size = place
  by_cases hneg : place < 0
  · rw [if_pos hneg, if_pos hneg]
    rfl
  · rw [if_neg hneg, if_neg hneg]
    by_cases hin : (w.heap.list r).size ≤ place
    · rw [if_pos hin]
      by_cases hlimit : w.heap.limit < place + 1
      · rw [if_pos ⟨hin, hlimit⟩]
        exact bind_of_error ((checkSize_apply _ w).trans (if_pos (by omega))) _
      · rw [if_neg fun h => hlimit h.2]
        exact bind_of_ok ((checkSize_apply _ w).trans (if_neg (by omega))) _
    · rw [if_neg hin, if_neg fun h => hin h.1]
      rfl

theorem run_store (interp : Interp) (n : Nat) (block : Option Callable)
    (hr : w.heap.listRef? receiver = some r) :
    Builtin.run interp n (.array .store) ⟨receiver, [.int i, v], block⟩ w = storeAt r i v w :=
  bind_of_ok (needs_of_some hr) _

theorem run_index (interp : Interp) (n : Nat) (block : Option Callable)
    (hr : w.heap.listRef? receiver = some r) :
    Builtin.run interp n (.array .index) ⟨receiver, [.int i], block⟩ w =
      .ok (.ofOption ((Slice.index? i.toInt (w.heap.list r).size).bind ((w.heap.list r)[·]?))) w :=
  have hitems : needItems receiver w = .ok (w.heap.list r) w := bind_of_ok (needs_of_some hr) _
  bind_of_ok hitems _

end Lists

/-- Writing into an array fails, and changes nothing, exactly if the index is before the beginning
or the array would have to grow beyond the limit of the heap. Else the value is at its place, `nil`
at new places before it, and all else as it was, and the index reads the value back, whatever value
stands for the array. -/
theorem array_store_reads_back (interp : Interp) (n : Nat) (w : World) (receiver v : Value)
    (block : Option Callable) (r : ListRef) (i : Int64) (hr : w.heap.listRef? receiver = some r)
    (hlives : r.index < w.heap.lists.size) :
    let length := (w.heap.list r).size
    let place : Int := if i.toInt < 0 then i.toInt + length else i.toInt
    let result := Builtin.run interp n (.array .store) ⟨receiver, [.int i, v], block⟩ w
    (place < 0 → result = .error (.failed { fault := .indexTooSmall i }) w) ∧
      (length ≤ place ∧ w.heap.limit < place + 1 →
        result = .error (.failed { fault := .sizeTooBig }) w) ∧
      (0 ≤ place ∧ ¬(length ≤ place ∧ w.heap.limit < place + 1) →
        ∃ w', result = .ok v w' ∧ w.SameButItems r w' ∧
          Lists.WrittenAt (w.heap.list r) place.toNat v (w'.heap.list r) ∧
          ∀ (interp' : Interp) (n' : Nat) (other : Value) (block' : Option Callable),
            w'.heap.listRef? other = some r →
              Builtin.run interp' n' (.array .index) ⟨other, [.int i], block'⟩ w' = .ok v w') ∧
      (Fault.indexTooSmall i).kind = .indexError ∧
      Fault.sizeTooBig.message = "invalid argument: size too big" ∧
      Core.heap.methodOf (.array r) "[]=" = some (.builtin (.array .store)) ∧
      Core.heap.methodOf (.array r) "[]" = some (.builtin (.array .index)) := by
  intro length place result
  have hplace : Slice.fromEnd i.toInt (w.heap.list r).size = place := rfl
  have hresult : result = _ :=
    (Lists.run_store interp n block hr).trans (Lists.storeAt_apply hplace)
  refine ⟨fun hneg => ?_, fun hbig => ?_, fun ⟨hpos, hfits⟩ => ?_, rfl, rfl, rfl, rfl⟩
  · rw [hresult, if_pos hneg]
  · rw [hresult, if_neg (by omega), if_pos hbig]
  · rw [if_neg (by omega), if_neg hfits] at hresult
    have hitems : (w.heap.modifyList r (Lists.written · place.toNat v)).list r =
        Lists.written (w.heap.list r) place.toNat v := Store.get_modify_self hlives _
    have hwritten := Lists.writtenAt_written (w.heap.list r) place.toNat v
    rw [← hitems] at hwritten
    refine ⟨_, hresult, w.sameButItems_modifyList r _, hwritten,
      fun interp' n' other block' hother => ?_⟩
    have hindex := hwritten.index?_eq (i := i.toInt) (hplace.trans (Int.toNat_of_nonneg hpos).symm)
    rw [Lists.run_index interp' n' block' hother, hindex, Option.bind_some, hwritten.here]
    rfl

/-- Two places are between the end of an array of one item and the place that is written. The array
is read through an instance of a subclass. -/
theorem array_store_reads_back_padded :
    let w : World := { heap := { Core.heap with
      lists := ⟨#[#[.int 7], #[]]⟩
      objects := ⟨#[{ klass := Core.array, base := some (.array ⟨0⟩) }]⟩
      limit := 4 } }
    let result :=
      Builtin.run Session.evaluator 0 (.array .store) ⟨.array ⟨0⟩, [.int 3, .int 9], none⟩ w
    w.heap.listRef? (.array ⟨0⟩) = some ⟨0⟩ ∧ 0 < w.heap.lists.size ∧
      ∃ w', result = .ok (.int 9) w' ∧ w.SameButItems ⟨0⟩ w' ∧
        Lists.WrittenAt #[.int 7] 3 (.int 9) (w'.heap.list ⟨0⟩) ∧
        Builtin.run Session.evaluator 0 (.array .index) ⟨.object ⟨0⟩, [.int 3], none⟩ w' =
          .ok (.int 9) w' := by
  intro w result
  obtain ⟨-, -, hwrites, -⟩ := array_store_reads_back Session.evaluator 0 w (.array ⟨0⟩) (.int 9)
    none ⟨0⟩ 3 rfl (by decide)
  obtain ⟨w', hresult, hsame, hwritten, hreads⟩ := hwrites (by decide)
  refine ⟨rfl, by decide, w', hresult, hsame, hwritten, hreads _ _ _ _ ?_⟩
  rw [hsame.rest]
  rfl

end Spinel
