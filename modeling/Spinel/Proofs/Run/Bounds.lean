import Spinel.Proofs.Number.Exactness
import Spinel.Proofs.Run.Slices

/-!
# The bounds of slices

Indices and slices are worked out in steps of sixty-four bits, and the items are taken from places
that have to be there. Here each step is one that can fail: a sum that does not fit, and a place or
a stretch that does not lie in the sequence, give nothing at all. For sequences of less than
`2 ^ 63` items no step fails, and the steps give what the exact definitions give
(`slices_stay_inside`).
-/

namespace Spinel

namespace Slice

variable {α : Type} {length : Nat}

/-! ## Steps that can fail -/

/-- The place that an integer is used as. A negative one would lie far behind every item. -/
def place (i : Int64) : Nat := i.toUInt64.toNat

/-- A negative index counts from the end, if the sum fits. -/
def fromEnd64? (i total : Int64) : Option Int64 := if i < 0 then Integer.add i total else some i

def index64? (i : Int64) (length : Nat) : Option (Option Nat) := do
  let total := Int64.ofNat length
  let i ← fromEnd64? i total
  return if 0 ≤ i ∧ i < total then some (place i) else none

def slice64? (start count : Int64) (length : Nat) : Option (Option (Nat × Nat)) := do
  let total := Int64.ofNat length
  let start ← fromEnd64? start total
  return if start < 0 ∨ total < start ∨ count < 0 then none
    else some (place start, place (min (saturated (start.toInt + count.toInt)) total))

def between64? (low high : Int64) (length : Nat) : Option (Option (Nat × Nat)) := do
  let total := Int64.ofNat length
  let low ← fromEnd64? low total
  let high ← fromEnd64? high total
  let count := max (saturated ((saturated (high.toInt - low.toInt)).toInt + 1)) 0
  slice64? low count length

/-- What is made of a stretch of a sequence, and `nil` for none, if the stretch lies in it. -/
def cut? (make : List α → Run Value) (xs : List α) : Option (Nat × Nat) → Option (Run Value)
  | some (start, stop) =>
    if start ≤ stop ∧ stop ≤ xs.length then some (make ((xs.take stop).drop start)) else none
  | none => some (pure .nil)

/-- Reading a sequence by an index, by a start and a count, by two bounds, or by another value. -/
def read? (one : α → Run Value) (make : List α → Run Value) (other : Value → Run Value)
    (range? : Value → Option (Int64 × Int64)) (xs : List α) (args : List Value) :
    Option (Run Value) := do
  match args with
  | [.int i] =>
    match ← index64? i xs.length with
    | some k => return one (← xs[k]?)
    | none => return pure .nil
  | [.int start, .int count] => cut? make xs (← slice64? start count xs.length)
  | [v] =>
    match range? v with
    | some (low, high) => cut? make xs (← between64? low high xs.length)
    | none => return other v
  | args => return Run.wrongCount args 1 (some 2)

/-! ## No step fails -/

theorem place_eq {i : Int64} (h : 0 ≤ i.toInt) : place i = i.toInt.toNat :=
  Int64.toNat_toUInt64_of_le (Int64.le_iff_toInt_le.2 h)

theorem toInt_min (x y : Int64) : (min x y).toInt = min x.toInt y.toInt := by
  change (if x ≤ y then x else y).toInt = _
  rw [apply_ite Int64.toInt, Int.min_def]
  exact if_congr Int64.le_iff_toInt_le rfl rfl

theorem toInt_max (x y : Int64) : (max x y).toInt = max x.toInt y.toInt := by
  change (if x ≤ y then y else x).toInt = _
  rw [apply_ite Int64.toInt, Int.max_def]
  exact if_congr Int64.le_iff_toInt_le rfl rfl

/-- The sum of a negative number and a length fits. -/
theorem exists_fromEnd64? (hlength : length < 2 ^ 63) (i : Int64) :
    ∃ j, fromEnd64? i (.ofNat length) = some j ∧ j.toInt = fromEnd i.toInt length := by
  have hlow := i.le_toInt
  unfold fromEnd64? fromEnd
  by_cases hneg : i.toInt < 0
  · have hsum : int64? (i.toInt + length) = some (.ofInt (i.toInt + length)) :=
      int64?_of_fits (by omega) (by omega)
    refine ⟨.ofInt (i.toInt + length), ?_, ?_⟩
    · rw [if_pos (Integer.neg_iff.2 hneg), Integer.add, Int64.toInt_ofNat_of_lt hlength, hsum]
    · rw [if_pos hneg, int64?_eq_some_iff.1 hsum]
  · exact ⟨i, if_neg (mt Integer.neg_iff.1 hneg), (if_neg hneg).symm⟩

theorem index64?_eq (hlength : length < 2 ^ 63) (i : Int64) :
    index64? i length = some (index? i.toInt length) := by
  obtain ⟨j, hj, hvalue⟩ := exists_fromEnd64? hlength i
  have hin : 0 ≤ j ∧ j < Int64.ofNat length ↔ 0 ≤ j.toInt ∧ j.toInt < length := by
    rw [Int64.le_iff_toInt_le, Int64.lt_iff_toInt_lt, Int64.toInt_ofNat_of_lt hlength]
    rfl
  unfold index64? index?
  simp only [hj, hin, ← hvalue, Option.bind_eq_bind, Option.bind_some, Option.pure_def]
  split
  · next h => rw [place_eq h.1]
  · rfl

theorem slice64?_eq (hlength : length < 2 ^ 63) (start count : Int64) :
    slice64? start count length = some (slice? start.toInt count.toInt length) := by
  obtain ⟨j, hj, hvalue⟩ := exists_fromEnd64? hlength start
  have htotal := Int64.toInt_ofNat_of_lt hlength
  have hmin := Int64.toInt_minValue
  have hmax := Int64.toInt_maxValue
  have hout : (j < 0 ∨ Int64.ofNat length < j ∨ count < 0) ↔
      (j.toInt < 0 ∨ length < j.toInt ∨ count.toInt < 0) := by
    rw [Integer.neg_iff, Integer.neg_iff, Int64.lt_iff_toInt_lt, htotal]
  unfold slice64? slice?
  simp only [hj, hout, ← hvalue, Option.bind_eq_bind, Option.bind_some, Option.pure_def]
  split
  · rfl
  · next hin =>
    have hstop : (min (saturated (j.toInt + count.toInt)) (Int64.ofNat length)).toInt =
        min (j.toInt + count.toInt) length := by
      rw [toInt_min, toInt_saturated, htotal]
      omega
    rw [place_eq (by omega), place_eq (by omega), hstop]

theorem between64?_eq (hlength : length < 2 ^ 63) (low high : Int64) :
    between64? low high length = some (between? low.toInt high.toInt length) := by
  obtain ⟨lo, hlo, hlow⟩ := exists_fromEnd64? hlength low
  obtain ⟨hi, hhi, hhigh⟩ := exists_fromEnd64? hlength high
  have hmin := Int64.toInt_minValue
  have hmax := Int64.toInt_maxValue
  unfold between64?
  simp only [hlo, hhi, Option.bind_eq_bind, Option.bind_some]
  rw [slice64?_eq hlength, toInt_max, Int64.toInt_zero, hlow, hhigh,
    ← saturatingBetween?_eq (by omega)]
  -- What is left is the sum of the start and the count, which is cut off at the length anyway.
  unfold slice? saturatingBetween?
  dsimp only
  generalize fromEnd (fromEnd low.toInt length) length = start
  generalize (saturated _).toInt = count
  split
  · rfl
  · rw [toInt_saturated]
    congr 3
    omega

/-! ## Bounds -/

theorem index?_lt {i : Int} {k : Nat} (h : index? i length = some k) : k < length := by
  unfold index? at h
  dsimp only at h
  split at h
  · cases h
    omega
  · cases h

theorem slice?_eq_none_iff {start count : Int} :
    slice? start count length = none ↔
      count < 0 ∨ fromEnd start length < 0 ∨ length < fromEnd start length := by
  unfold slice?
  dsimp only
  split
  · exact iff_of_true rfl (by omega)
  · exact iff_of_false nofun (by omega)

theorem slice?_eq_some {start count : Int} {s e : Nat}
    (h : slice? start count length = some (s, e)) :
    s = fromEnd start length ∧ s ≤ length ∧ e = s + min count.toNat (length - s) := by
  unfold slice? at h
  dsimp only at h
  split at h
  · cases h
  · cases h
    omega

theorem slice?_inside {start count : Int} {s e : Nat}
    (h : slice? start count length = some (s, e)) : s ≤ e ∧ e ≤ length := by
  obtain ⟨-, hstart, hstop⟩ := slice?_eq_some h
  omega

/-! ## Reading -/

/-- What is made of a stretch, and `nil` for none. -/
def cut (make : List α → Run Value) (xs : List α) : Option (Nat × Nat) → Run Value
  | some (start, stop) => make ((xs.take stop).drop start)
  | none => pure .nil

/-- Reading a sequence with exact steps. -/
def read (one : α → Run Value) (make : List α → Run Value) (other : Value → Run Value)
    (range? : Value → Option (Int64 × Int64)) (xs : List α) (args : List Value) : Run Value :=
  match args with
  | [.int i] => ((index? i.toInt xs.length).bind (xs[·]?)).elim (pure .nil) one
  | [.int start, .int count] => cut make xs (slice? start.toInt count.toInt xs.length)
  | [v] =>
    match range? v with
    | some (low, high) => cut make xs (between? low.toInt high.toInt xs.length)
    | none => other v
  | args => Run.wrongCount args 1 (some 2)

theorem cut?_eq {make : List α → Run Value} {xs : List α} {start count : Int} :
    cut? make xs (slice? start count xs.length) =
      some (cut make xs (slice? start count xs.length)) := by
  cases hslice : slice? start count xs.length with
  | none => rfl
  | some p => exact if_pos (slice?_inside hslice)

theorem read?_eq (one : α → Run Value) (make : List α → Run Value) (other : Value → Run Value)
    (range? : Value → Option (Int64 × Int64)) {xs : List α} (hlength : xs.length < 2 ^ 63)
    (args : List Value) :
    read? one make other range? xs args = some (read one make other range? xs args) := by
  unfold read? read
  split
  · next i =>
    rw [index64?_eq hlength]
    cases hplace : index? i.toInt xs.length with
    | none => rfl
    | some k =>
      have hitem := List.getElem?_eq_getElem (index?_lt hplace)
      simp only [Option.bind_eq_bind, Option.bind_some, hitem, Option.pure_def, Option.elim_some]
  · next start count =>
    rw [slice64?_eq hlength]
    exact cut?_eq
  · next v _ =>
    cases range? v with
    | none => rfl
    | some bounds =>
      dsimp only
      rw [between64?_eq hlength]
      exact cut?_eq
  · rfl

end Slice

/-! ## Arrays and strings -/

open Run

/-- Reading an array in such steps. -/
def Lists.index64? (h : Heap) (items : Array Value) (args : List Value) : Option (Run Value) :=
  Slice.read? pure newList (wrongShape · .integer) h.range? items.toList args

/-- Reading a string in such steps. -/
def Texts.index64? (h : Heap) (cs : List Char) (args : List Value) : Option (Run Value) :=
  Slice.read? (fun c => newChars [c]) newChars (index.part cs) h.range? cs args

theorem Lists.stretch_eq (items : Array Value) (bounds : Option (Nat × Nat)) :
    stretch items bounds = Slice.cut newList items.toList bounds := by
  cases bounds with
  | none => rfl
  | some bounds =>
    have hextract : items.extract bounds.1 bounds.2 =
        ((items.toList.take bounds.2).drop bounds.1).toArray := by
      rw [List.drop_take, ← List.extract_eq_take_drop, ← Array.toList_extract]
    exact congrArg newArray hextract

theorem Lists.index_eq (items : Array Value) (args : List Value) (w : World) :
    index items args w =
      Slice.read pure newList (wrongShape · .integer) w.heap.range? items.toList args w := by
  unfold Slice.read
  split
  · next i =>
    rw [index, Array.length_toList]
    simp only [Array.getElem?_toList]
    cases (Slice.index? i.toInt items.size).bind (items[·]?) with
    | none => rfl
    | some v => rfl
  · exact congrFun (stretch_eq items _) w
  · next v hv =>
    have hread : reading (·.range? v) w = .ok (w.heap.range? v) w := rfl
    rw [index, bind_of_ok hread]
    · cases w.heap.range? v with
      | none => rfl
      | some bounds => exact congrFun (stretch_eq items _) w
    · exact hv
  · next hone htwo hother => rw [index] <;> assumption

theorem Texts.substring_eq (cs : List Char) (bounds : Option (Nat × Nat)) :
    substring cs bounds = Slice.cut newChars cs bounds := by
  cases bounds with
  | none => rfl
  | some bounds => rfl

theorem Texts.index_eq (cs : List Char) (args : List Value) (w : World) :
    index cs args w =
      Slice.read (fun c => newChars [c]) newChars (index.part cs) w.heap.range? cs args w := by
  unfold Slice.read
  split
  · next i =>
    rw [index]
    cases (Slice.index? i.toInt cs.length).bind (cs[·]?) with
    | none => rfl
    | some c => rfl
  · exact congrFun (substring_eq cs _) w
  · next v hv =>
    have hread : reading (·.range? v) w = .ok (w.heap.range? v) w := rfl
    rw [index]
    · cases hrange : w.heap.range? v with
      | none => rfl
      | some bounds =>
        rw [hrange] at hread
        rw [index.part, bind_of_ok hread]
        exact congrFun (substring_eq cs _) w
    · exact hv
  · next hone htwo hother => rw [index] <;> assumption

/-- For a sequence of less than `2 ^ 63` items no sum that an index, a start and a count or two
bounds are worked out with leaves the integers of sixty-four bits. The place of an index lies in the
sequence, and so does a stretch. There is none for a start and a count exactly if the count is
negative or the start, with the length added to it if it is negative, lies outside; else the stretch
has as many items from the start on as there are, up to the count. So reading an array or a string
never fails for a sum or a place, whatever the arguments are. -/
theorem slices_stay_inside (length : Nat) (hlength : length < 2 ^ 63) :
    (∀ i : Int64, Slice.index64? i length = some (Slice.index? i.toInt length) ∧
      ∀ k, Slice.index? i.toInt length = some k → k < length) ∧
    (∀ start count : Int64,
      let first : Int := if start.toInt < 0 then start.toInt + length else start.toInt
      Slice.slice64? start count length = some (Slice.slice? start.toInt count.toInt length) ∧
      (Slice.slice? start.toInt count.toInt length = none ↔
        count.toInt < 0 ∨ first < 0 ∨ length < first) ∧
      ∀ s e, Slice.slice? start.toInt count.toInt length = some (s, e) →
        s ≤ e ∧ e ≤ length ∧ s = first ∧ ∀ (α : Type) (xs : List α),
          (xs.take e).drop s = (xs.drop s).take (min count.toInt.toNat (length - s))) ∧
    (∀ low high : Int64,
      Slice.between64? low high length = some (Slice.between? low.toInt high.toInt length) ∧
      ∀ s e, Slice.between? low.toInt high.toInt length = some (s, e) → s ≤ e ∧ e ≤ length) ∧
    (∀ (interp : Interp) (n : Nat) (w : World) (receiver : Value) (args : List Value)
      (block : Option Callable),
      (∀ r, w.heap.listRef? receiver = some r → (w.heap.list r).size = length →
        (Lists.index64? w.heap (w.heap.list r) args).map (· w) =
          some (Builtin.run interp n (.array .index) ⟨receiver, args, block⟩ w)) ∧
      ∀ text, w.heap.text? receiver = some text → text.length = length →
        (Texts.index64? w.heap text.toList args).map (· w) =
          some (Builtin.run interp n (.string .index) ⟨receiver, args, block⟩ w)) ∧
    ∀ r r', Core.heap.methodOf (.array r) "[]" = some (.builtin (.array .index)) ∧
      Core.heap.methodOf (.str r') "[]" = some (.builtin (.string .index)) := by
  refine ⟨fun i => ⟨Slice.index64?_eq hlength i, fun k => Slice.index?_lt⟩,
    fun start count => ⟨Slice.slice64?_eq hlength start count, Slice.slice?_eq_none_iff, ?_⟩,
    fun low high => ⟨Slice.between64?_eq hlength low high, fun s e => Slice.slice?_inside⟩,
    fun interp n w receiver args block => ⟨?_, ?_⟩, fun r r' => ⟨rfl, rfl⟩⟩
  · intro s e hslice
    obtain ⟨hfirst, hstart, hstop⟩ := Slice.slice?_eq_some hslice
    refine ⟨by omega, by omega, hfirst, fun α xs => ?_⟩
    rw [List.drop_take, hstop, Nat.add_sub_cancel_left]
  · rintro r hr rfl
    have hitems : needItems receiver w = .ok (w.heap.list r) w := bind_of_ok (needs_of_some hr) _
    have hrun : Builtin.run interp n (.array .index) ⟨receiver, args, block⟩ w =
        Lists.index (w.heap.list r) args w := bind_of_ok hitems _
    rw [hrun, Lists.index_eq, Lists.index64?, Slice.read?_eq _ _ _ _ hlength]
    rfl
  · rintro text ht rfl
    have htext : needText receiver w = .ok text w := needs_of_some ht
    have hrun : Builtin.run interp n (.string .index) ⟨receiver, args, block⟩ w =
        Texts.index text.toList args w := bind_of_ok htext _
    rw [hrun, Texts.index_eq, Texts.index64?, Slice.read?_eq _ _ _ _ hlength]
    rfl

/-- The last two of three items, with the greatest count. -/
theorem slices_stay_inside_greatest_count :
    let w : World := { heap := { Core.heap with lists := ⟨#[#[.int 5, .int 6, .int 7]]⟩ } }
    Slice.slice64? (-2) Int64.maxValue 3 = some (some (1, 3)) ∧
      (Lists.index64? w.heap (w.heap.list ⟨0⟩) [.int (-2), .int Int64.maxValue]).map (· w) =
        some (newList [.int 6, .int 7] w) := by
  intro w
  obtain ⟨-, hslice, -, hreads, -⟩ := slices_stay_inside 3 (by decide)
  refine ⟨(hslice (-2) Int64.maxValue).1.trans (by decide), ?_⟩
  exact (hreads Session.evaluator 0 w (.array ⟨0⟩) _ none).1 ⟨0⟩ rfl rfl

end Spinel
