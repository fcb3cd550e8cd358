import Mathlib.Data.List.Basic
import Spinel.Proofs.Run.Receivers

/-!
# Reading stretches of arrays and strings

Negative bounds count from the end. Reading from a start that lies outside a sequence gives `nil`,
and else a new sequence of the items whose places lie between the bounds (`Slice.reads`). For two
bounds this is so exactly if the start does not lie before the beginning by one length or less,
where the length is added to it once more (`range_slices_iff`).
-/

namespace Spinel

namespace Slice

variable {α : Type} {lo hi : Int}

/-! ## Items between bounds -/

/-- The items whose places lie between two bounds, in order. -/
def pick (lo hi : Int) (xs : List α) : List α :=
  (xs.zipIdx.filter fun p => lo ≤ p.2 ∧ p.2 ≤ hi).map (·.1)

/-- The same, with places counted from `k` on. -/
theorem pick_zipIdx (lo hi : Int) (xs : List α) (k : Nat) :
    ((xs.zipIdx k).filter fun p => lo ≤ p.2 ∧ p.2 ≤ hi).map (·.1) =
      (xs.take (hi + 1 - k).toNat).drop (lo - k).toNat := by
  induction xs generalizing k with
  | nil => simp
  | cons x xs ih =>
    have ih := ih (k + 1)
    rw [List.zipIdx_cons, List.filter_cons]
    by_cases hhi : (k : Int) ≤ hi
    · have htake : (hi + 1 - k).toNat = (hi + 1 - (k + 1 : Nat)).toNat + 1 := by omega
      by_cases hlo : lo ≤ k
      · have hdrop : (lo - k).toNat = 0 ∧ (lo - (k + 1 : Nat)).toNat = 0 := by omega
        rw [if_pos (by simpa using ⟨hlo, hhi⟩), List.map_cons, ih, htake, hdrop.1, hdrop.2]
        rfl
      · have hdrop : (lo - k).toNat = (lo - (k + 1 : Nat)).toNat + 1 := by omega
        rw [if_neg (by simp [hlo]), ih, htake, hdrop]
        rfl
    · -- this item and all behind it lie beyond the upper bound
      have htake : (hi + 1 - k).toNat = 0 ∧ (hi + 1 - (k + 1 : Nat)).toNat = 0 := by omega
      rw [if_neg (by simp [hhi]), ih, htake.1, htake.2, List.take_zero, List.take_zero,
        List.drop_nil, List.drop_nil]

theorem pick_eq (lo hi : Int) (xs : List α) :
    pick lo hi xs = (xs.take (hi + 1).toNat).drop lo.toNat := by
  have hpick := pick_zipIdx lo hi xs 0
  rwa [Int.natCast_zero, Int.sub_zero, Int.sub_zero] at hpick

/-- The items from a start on, as many as there are up to the upper bound. -/
theorem drop_take_eq_pick {xs : List α} (hlo : 0 ≤ lo) (hlen : lo ≤ xs.length) :
    (xs.take (min (lo + max (hi - lo + 1) 0) xs.length).toNat).drop lo.toNat = pick lo hi xs := by
  rw [pick_eq]
  by_cases hempty : hi + 1 ≤ lo
  · have hstop : (min (lo + max (hi - lo + 1) 0) xs.length).toNat = lo.toNat := by omega
    rw [hstop, List.drop_eq_nil_of_le (List.length_take_le _ _), List.drop_eq_nil_of_le]
    have hle := List.length_take_le (hi + 1).toNat xs
    omega
  · have hstop : (min (lo + max (hi - lo + 1) 0) xs.length).toNat =
        min (hi + 1).toNat xs.length := by omega
    rw [hstop, ← List.take_eq_take_min]

/-! ## Bounds -/

/-- The start lies before the beginning, but by one length at most. -/
def JustBefore (low : Int) (length : Nat) : Prop :=
  fromEnd low length < 0 ∧ 0 ≤ fromEnd low length + length

variable {low high : Int} {length : Nat}

instance : Decidable (JustBefore low length) := inferInstanceAs (Decidable (_ ∧ _))

theorem between?_of_nonneg (h : 0 ≤ fromEnd low length) :
    between? low high length =
      if length < fromEnd low length then none
      else some ((fromEnd low length).toNat, (min (fromEnd low length +
        max (fromEnd high length - fromEnd low length + 1) 0) length).toNat) := by
  have hagain : fromEnd (fromEnd low length) length = fromEnd low length := if_neg (by omega)
  unfold between? slice?
  dsimp only
  rw [hagain]
  split
  · next hout => rw [if_pos (by omega)]
  · next hin => rw [if_neg (by omega)]

theorem between?_of_neg (h : fromEnd low length < 0) (hfar : ¬JustBefore low length) :
    between? low high length = none := by
  have hagain : fromEnd (fromEnd low length) length = fromEnd low length + length := if_pos h
  unfold between? slice?
  dsimp only
  rw [hagain]
  exact if_pos (.inl (Int.not_le.1 fun hnear => hfar ⟨h, hnear⟩))

/-- A start just before the beginning is counted from the end once more. -/
theorem exists_between?_of_justBefore (h : JustBefore low length) :
    ∃ start stop, between? low high length = some (start, stop) := by
  have hagain : fromEnd (fromEnd low length) length = fromEnd low length + length := if_pos h.1
  have hbehind := h.1
  have hin := h.2
  unfold between? slice?
  dsimp only
  rw [hagain]
  exact ⟨_, _, if_neg (by omega)⟩

/-! ## Reading -/

/-- What reading between two bounds is meant to give: `nil` if the start lies outside, and else what
is made of the items between the bounds. -/
def reads (make : List α → Run Value) (low high : Int) (xs : List α) : Run Value :=
  let lo := fromEnd low xs.length
  let hi := fromEnd high xs.length
  if lo < 0 ∨ xs.length < lo then return .nil else make (pick lo hi xs)

theorem reads_of_outside {make : List α → Run Value} {xs : List α}
    (h : fromEnd low xs.length < 0 ∨ xs.length < fromEnd low xs.length) :
    reads make low high xs = pure .nil :=
  if_pos h

theorem reads_of_inside {make : List α → Run Value} {xs : List α} (h : 0 ≤ fromEnd low xs.length)
    (h' : fromEnd low xs.length ≤ xs.length) :
    reads make low high xs =
      make (pick (fromEnd low xs.length) (fromEnd high xs.length) xs) :=
  if_neg (by omega)

/-- A stretch of some items is what it is meant to be, unless its start is just before the
beginning: then there is a stretch although there should be none. -/
theorem stretch_between?_iff {make : List α → Run Value} {stretch : Option (Nat × Nat) → Run Value}
    {xs : List α} {w : World} (hnone : stretch none = pure .nil)
    (hsome : ∀ start stop, stretch (some (start, stop)) = make ((xs.take stop).drop start))
    (hmake : ∀ ys, make ys w ≠ .ok .nil w) :
    stretch (between? low high xs.length) w = reads make low high xs w ↔
      ¬JustBefore low xs.length := by
  by_cases hnear : JustBefore low xs.length
  · obtain ⟨start, stop, hbetween⟩ : ∃ start stop,
        between? low high xs.length = some (start, stop) := exists_between?_of_justBefore hnear
    rw [hbetween, hsome, reads_of_outside (.inl hnear.1)]
    exact ⟨fun heq => absurd heq (hmake _), fun hfar => absurd hnear hfar⟩
  · refine iff_of_true ?_ hnear
    by_cases hneg : fromEnd low xs.length < 0
    · rw [between?_of_neg hneg hnear, hnone, reads_of_outside (.inl hneg)]
    · rw [between?_of_nonneg (by omega)]
      by_cases hbeyond : (xs.length : Int) < fromEnd low xs.length
      · rw [if_pos hbeyond, hnone, reads_of_outside (.inr hbeyond)]
      · rw [if_neg hbeyond, hsome, drop_take_eq_pick (by omega) (by omega),
          reads_of_inside (by omega) (by omega)]

/-! ## Steps of sixty-four bits -/

/-- The places between two bounds, computed in steps that stay among the integers of sixty-four
bits. -/
def saturatingBetween? (low high : Int64) (length : Nat) : Option (Nat × Nat) :=
  let low := fromEnd low.toInt length
  let high := fromEnd high.toInt length
  let count := max (saturated ((saturated (high - low)).toInt + 1)).toInt 0
  let start := fromEnd low length
  if start < 0 ∨ length < start ∨ count < 0 then none
  else some (start.toNat, (min (saturated (start + count)).toInt length).toNat)

/-- For a sequence whose length is such an integer, staying among them makes no difference. -/
theorem saturatingBetween?_eq {low high : Int64} {length : Nat}
    (h : length ≤ Int64.maxValue.toInt) :
    saturatingBetween? low high length = between? low.toInt high.toInt length := by
  have hmin := Int64.toInt_minValue
  have hmax := Int64.toInt_maxValue
  have hlow := low.le_toInt
  have hhigh := high.toInt_lt
  unfold saturatingBetween? between? slice?
  dsimp only
  simp only [toInt_saturated]
  generalize hlo : fromEnd low.toInt length = lo
  generalize hhi : fromEnd high.toInt length = hi
  generalize hstart : fromEnd lo length = start
  have hbounds : Int64.minValue.toInt ≤ lo ∧ hi ≤ Int64.maxValue.toInt := by
    unfold fromEnd at hlo hhi
    constructor
    · split at hlo <;> omega
    · split at hhi <;> omega
  by_cases hout : start < 0 ∨ length < start
  · rw [if_pos (by omega), if_pos (by omega)]
  · rw [if_neg (by omega), if_neg (by omega)]
    congr 2
    omega

end Slice

/-! ## Arrays and strings -/

open Run

variable {w : World} {receiver argument : Value} {low high : Int64}

theorem Lists.index_of_range {interp : Interp} {n : Nat} {block : Option Callable} {r : ListRef}
    (hr : w.heap.listRef? receiver = some r) (ha : w.heap.range? argument = some (low, high)) :
    Lists.run interp n .index ⟨receiver, [argument], block⟩ w =
      Lists.stretch (w.heap.list r)
        (Slice.between? low.toInt high.toInt (w.heap.list r).size) w := by
  have hitems : needItems receiver w = .ok (w.heap.list r) w := bind_of_ok (needs_of_some hr) _
  have hread : reading (·.range? argument) w = .ok (some (low, high)) w :=
    congrArg (EStateM.Result.ok · w) ha
  refine (bind_of_ok hitems _).trans ?_
  cases argument with
  | int i => cases ha
  | nil | bool | float | symbol | str | array | hash | range | klass | proc | object =>
    exact bind_of_ok hread _

theorem Texts.index_of_range {block : Option Callable} {text : String}
    (ht : w.heap.text? receiver = some text) (ha : w.heap.range? argument = some (low, high)) :
    Texts.run .index ⟨receiver, [argument], block⟩ w =
      Texts.substring text.toList
        (Slice.between? low.toInt high.toInt text.toList.length) w := by
  have htext : needText receiver w = .ok text w := needs_of_some ht
  have hread : reading (·.range? argument) w = .ok (some (low, high)) w :=
    congrArg (EStateM.Result.ok · w) ha
  refine (bind_of_ok htext _).trans ?_
  cases argument with
  | int i => cases ha
  | nil | bool | float | symbol | str | array | hash | range | klass | proc | object =>
    exact bind_of_ok hread _

/-- Reading an array or a string between two bounds gives what it is meant to give exactly if the
start is not just before the beginning. A start before the beginning gives `nil` with a count, and
two bounds could as well be worked out in steps of sixty-four bits. -/
theorem range_slices_iff (interp : Interp) (n : Nat) (w : World) (receiver argument : Value)
    (block : Option Callable) (low high : Int64)
    (ha : w.heap.range? argument = some (low, high)) :
    (∀ r, w.heap.listRef? receiver = some r →
      (Lists.run interp n .index ⟨receiver, [argument], block⟩ w =
          Slice.reads newList low.toInt high.toInt (w.heap.list r).toList w ↔
        ¬Slice.JustBefore low.toInt (w.heap.list r).size) ∧
      ∀ start count : Int64, Slice.fromEnd start.toInt (w.heap.list r).size < 0 →
        Lists.run interp n .index ⟨receiver, [.int start, .int count], block⟩ w = .ok .nil w) ∧
    (∀ text, w.heap.text? receiver = some text →
      (Texts.run .index ⟨receiver, [argument], block⟩ w =
          Slice.reads newChars low.toInt high.toInt text.toList w ↔
        ¬Slice.JustBefore low.toInt text.toList.length) ∧
      ∀ start count : Int64, Slice.fromEnd start.toInt text.toList.length < 0 →
        Texts.run .index ⟨receiver, [.int start, .int count], block⟩ w = .ok .nil w) ∧
    ∀ length : Nat, length ≤ Int64.maxValue.toInt →
      Slice.saturatingBetween? low high length = Slice.between? low.toInt high.toInt length := by
  refine ⟨fun r hr => ⟨?_, fun start count hstart => ?_⟩,
    fun text ht => ⟨?_, fun start count hstart => ?_⟩, fun length => Slice.saturatingBetween?_eq⟩
  · rw [Lists.index_of_range hr ha]
    have hsome : ∀ start stop, Lists.stretch (w.heap.list r) (some (start, stop)) =
        newList (((w.heap.list r).toList.take stop).drop start) := by
      intro start stop
      have hextract : (w.heap.list r).extract start stop =
          (((w.heap.list r).toList.take stop).drop start).toArray := by
        rw [List.drop_take, ← List.extract_eq_take_drop, ← Array.toList_extract]
      exact congrArg newArray hextract
    exact Slice.stretch_between?_iff rfl hsome fun ys => nofun
  · have hitems : needItems receiver w = .ok (w.heap.list r) w := bind_of_ok (needs_of_some hr) _
    have hnone : Slice.slice? start.toInt count.toInt (w.heap.list r).size = none :=
      if_pos (.inl hstart)
    refine (bind_of_ok hitems _).trans ?_
    exact congrArg (Lists.stretch (w.heap.list r) · w) hnone
  · rw [Texts.index_of_range ht ha]
    exact Slice.stretch_between?_iff rfl (fun _ _ => rfl) fun ys => nofun
  · have htext : needText receiver w = .ok text w := needs_of_some ht
    have hnone : Slice.slice? start.toInt count.toInt text.toList.length = none :=
      if_pos (.inl hstart)
    refine (bind_of_ok htext _).trans ?_
    exact congrArg (Texts.substring text.toList · w) hnone

/-- The last two of three items. -/
theorem range_slices_last_two :
    let w : World := { heap := { Core.heap with lists := ⟨#[#[.int 5, .int 6, .int 7]]⟩ } }
    Lists.run Session.evaluator 0 .index ⟨.array ⟨0⟩, [.range (-2) 9], none⟩ w =
      newList [.int 6, .int 7] w := by
  intro w
  obtain ⟨harray, -⟩ := range_slices_iff Session.evaluator 0 w (.array ⟨0⟩) (.range (-2) 9) none
    (-2) 9 rfl
  exact (harray ⟨0⟩ rfl).1.2 (by decide)

/-- Two places before the beginning of three items, the last two of them are read. -/
theorem before_beginning_reads_on :
    let h := (Session.afterAll (Session.start)
      [.text "$x = [1, 2, 3][-5..-1]\n$y = 'abc'[-5..-1]" "main"]).heap
    Slice.fromEnd (-5) 3 < 0 ∧
      ((h.findLocal Core.root "$x").map h.key == some (.array [.int 2, .int 3])) ∧
      ((h.findLocal Core.root "$y").map h.key == some (.str "bc")) := by
  decide +kernel

end Spinel
