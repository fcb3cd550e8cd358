import Mathlib.Data.Nat.Log
import Spinel.Proofs.Run.Inquiry
import Spinel.Proofs.Run.Receivers

/-!
# Sorting arrays

An array is sorted by merging its sorted halves. Whatever the methods `<=>` of the items do, no item
is lost or added, and the first comparison that gives no integer ends the sorting. If these methods
order the items, the result is in ascending order and items that rank the same keep their order
(`array_sort_arranges`). There is only one such arrangement (`SortedBy.eq`).
-/

namespace Spinel

open Run Inquiry

/-! ## What it means to be sorted -/

/-- A function orders the items, where different items may rank the same. -/
def Preorders (cmp : Value → Value → Ordering) (items : List Value) : Prop :=
  Std.TransCmp fun x y : { v // v ∈ items } => cmp x y

/-- A list is in ascending order. -/
abbrev Ascending (cmp : Value → Value → Ordering) (xs : List Value) : Prop :=
  xs.Pairwise fun x y => (cmp x y).isLE

/-- A value ranks the same as another. -/
def alike (cmp : Value → Value → Ordering) (a x : Value) : Bool := cmp a x == .eq

/-- A list is the items in ascending order, and those that rank the same keep their order. -/
structure SortedBy (cmp : Value → Value → Ordering) (items ys : List Value) : Prop where
  perm : ys.Perm items
  ascending : Ascending cmp ys
  stable : ∀ a ∈ items, ys.filter (alike cmp a) = items.filter (alike cmp a)

namespace Preorders

variable {cmp : Value → Value → Ordering} {items xs : List Value} {x y z : Value}

theorem isLE_of_not_lt (h : Preorders cmp items) (hx : x ∈ items) (hy : y ∈ items)
    (hyx : cmp y x ≠ .lt) : (cmp x y).isLE := by
  have hswap : cmp x y = (cmp y x).swap :=
    @Std.OrientedCmp.eq_swap _ _ h.toOrientedCmp ⟨x, hx⟩ ⟨y, hy⟩
  rw [hswap]
  cases hlt : cmp y x with
  | lt => exact absurd hlt hyx
  | eq | gt => rfl

theorem congr_left (h : Preorders cmp items) (hx : x ∈ items) (hy : y ∈ items)
    (hz : z ∈ items) (hxy : cmp x y = .eq) : cmp x z = cmp y z :=
  @Std.TransCmp.congr_left _ _ h ⟨x, hx⟩ ⟨y, hy⟩ ⟨z, hz⟩ hxy

/-- What is at most the first of an ascending list is at most each. -/
theorem isLE_of_isLE_head (h : Preorders cmp items) (hy : y ∈ items) (hxs : x :: xs ⊆ items)
    (hascending : Ascending cmp (x :: xs)) (hyx : (cmp y x).isLE) (hz : z ∈ x :: xs) :
    (cmp y z).isLE := by
  rcases List.mem_cons.1 hz with rfl | htail
  · exact hyx
  · exact @Std.TransCmp.isLE_trans _ _ h ⟨y, hy⟩ ⟨x, hxs List.mem_cons_self⟩ ⟨z, hxs hz⟩ hyx
      (List.rel_of_pairwise_cons hascending htail)

/-- What is less than the first of an ascending list is less than each. -/
theorem lt_of_lt_head (h : Preorders cmp items) (hy : y ∈ items) (hxs : x :: xs ⊆ items)
    (hascending : Ascending cmp (x :: xs)) (hyx : cmp y x = .lt) (hz : z ∈ x :: xs) :
    cmp y z = .lt := by
  rcases List.mem_cons.1 hz with rfl | htail
  · exact hyx
  · exact @Std.TransCmp.lt_of_lt_of_isLE _ _ h ⟨y, hy⟩ ⟨x, hxs List.mem_cons_self⟩ ⟨z, hxs hz⟩ hyx
      (List.rel_of_pairwise_cons hascending htail)

theorem compare_self (h : Preorders cmp items) (hx : x ∈ items) : cmp x x = .eq :=
  have := h.toOrientedCmp
  @Std.ReflCmp.compare_self _ (fun x y : { v // v ∈ items } => cmp x y) inferInstance ⟨x, hx⟩

theorem alike_of_isLE (h : Preorders cmp items) (hx : x ∈ items) (hy : y ∈ items)
    (hxy : (cmp x y).isLE) (hyx : (cmp y x).isLE) : alike cmp x y :=
  beq_iff_eq.2 (@Std.OrientedCmp.isLE_antisymm _ _ h.toOrientedCmp ⟨x, hx⟩ ⟨y, hy⟩ hxy hyx)

/-- Nothing in an ascending list is less than its first. -/
theorem head_isLE (h : Preorders cmp items) (hxs : x :: xs ⊆ items)
    (hascending : Ascending cmp (x :: xs)) (hz : z ∈ x :: xs) : (cmp x z).isLE := by
  have hx : x ∈ items := hxs List.mem_cons_self
  refine h.isLE_of_isLE_head hx hxs hascending ?_ hz
  rw [h.compare_self hx]
  rfl

/-- Two arrangements of the same values in ascending order are the same if in both the values that
rank the same have the same order. -/
theorem eq_of_filter_eq {ys : List Value} (h : Preorders cmp items) (hxs : xs ⊆ items)
    (hperm : xs.Perm ys) (hascxs : Ascending cmp xs) (hascys : Ascending cmp ys)
    (hfilter : ∀ a ∈ items, xs.filter (alike cmp a) = ys.filter (alike cmp a)) : xs = ys := by
  induction xs generalizing ys with
  | nil => exact hperm.nil_eq
  | cons x xs ih =>
    match ys with
    | [] => cases hperm.length_eq
    | y :: ys =>
      have hys : y :: ys ⊆ items := List.Subset.trans hperm.symm.subset hxs
      have hx : x ∈ items := hxs List.mem_cons_self
      have hy : y ∈ items := hys List.mem_cons_self
      have hxy : alike cmp x y := h.alike_of_isLE hx hy
        (h.head_isLE hxs hascxs (hperm.symm.subset List.mem_cons_self))
        (h.head_isLE hys hascys (hperm.subset List.mem_cons_self))
      have hxx : alike cmp x x := beq_iff_eq.2 (h.compare_self hx)
      have hheads := hfilter x hx
      rw [List.filter_cons_of_pos hxx, List.filter_cons_of_pos hxy] at hheads
      obtain rfl : x = y := (List.cons.inj hheads).1
      congr 1
      refine ih (List.subset_of_cons_subset hxs) hperm.cons_inv hascxs.of_cons hascys.of_cons ?_
      intro a ha
      have htails := hfilter a ha
      rw [List.filter_cons, List.filter_cons] at htails
      split at htails
      · exact (List.cons.inj htails).2
      · exact htails

end Preorders

theorem SortedBy.eq {cmp : Value → Value → Ordering} {items ys zs : List Value}
    (hcmp : Preorders cmp items) (hys : SortedBy cmp items ys) (hzs : SortedBy cmp items zs) :
    ys = zs :=
  hcmp.eq_of_filter_eq hys.perm.subset (hys.perm.trans hzs.perm.symm) hys.ascending hzs.ascending
    fun a ha => (hys.stable a ha).trans (hzs.stable a ha).symm

namespace Lists

variable {cmp : Value → Value → Ordering} {items xs ys : List Value} {a x y : Value}

/-! ## Merging -/

theorem merge_nil_right {m : Type → Type} [Monad m] (order : Value → Value → m Ordering)
    (xs : List Value) : merge order xs [] = pure xs := by
  cases xs with
  | nil => rw [merge]
  | cons x xs => rw [merge.eq_2 _ _ (List.cons_ne_nil x xs)]

theorem run_merge (order : Value → Value → Run Ordering) (xs ys : List Value) :
    (merge question xs ys).run order = merge order xs ys := by
  fun_induction merge question xs ys with
  | case1 ys =>
    rw [merge]
    rfl
  | case2 xs =>
    rw [merge_nil_right]
    rfl
  | case3 x xs y ys ih₁ ih₂ =>
    rw [merge, run_bind, run_question]
    congr 1
    funext o
    by_cases hlt : (o == .lt) = true
    · rw [if_pos hlt, if_pos hlt, run_bind, ih₁]
      rfl
    · rw [if_neg hlt, if_neg hlt, run_bind, ih₂]
      rfl

/-- Merging loses no item and adds none, and asks at most once for each. -/
theorem confined_merge (hxs : xs ⊆ items) (hys : ys ⊆ items) :
    Confined items (List.Perm · (xs ++ ys)) (xs.length + ys.length) (merge question xs ys) := by
  fun_induction merge question xs ys with
  | case1 ys => exact .done (.refl _)
  | case2 xs => exact .done (.of_eq (List.append_nil xs).symm)
  | case3 x xs y ys ih₁ ih₂ =>
    obtain ⟨hx, hxs'⟩ := List.cons_subset.1 hxs
    obtain ⟨hy, hys'⟩ := List.cons_subset.1 hys
    have hcount : (x :: xs).length + (y :: ys).length = (x :: xs).length + ys.length + 1 := rfl
    rw [hcount]
    refine .ask hy hx fun o => ?_
    change Confined _ _ _ (if o == .lt then _ else _)
    split
    · refine (ih₁ hxs hys').bind (k := 0) fun rest hrest => .done ?_
      exact (hrest.cons y).trans List.perm_middle.symm
    · have hcount : (x :: xs).length + ys.length = xs.length + (y :: ys).length + 0 :=
        Nat.succ_add_eq_add_succ _ _
      rw [hcount]
      exact (ih₂ hxs' hys).bind fun rest hrest => .done (hrest.cons x)

theorem settle_merge_cons (cmp : Value → Value → Ordering) (x y : Value) (xs ys : List Value) :
    (merge question (x :: xs) (y :: ys)).settle cmp =
      if cmp y x = .lt then y :: (merge question (x :: xs) ys).settle cmp
      else x :: (merge question xs (y :: ys)).settle cmp := by
  rw [merge, settle_bind]
  change settle cmp (if cmp y x == .lt then _ else _) = _
  by_cases hlt : cmp y x = .lt
  · rw [if_pos (beq_iff_eq.2 hlt), if_pos hlt, settle_bind]
    rfl
  · rw [if_neg (mt beq_iff_eq.1 hlt), if_neg hlt, settle_bind]
    rfl

theorem settle_merge_perm (cmp : Value → Value → Ordering) (xs ys : List Value) :
    ((merge question xs ys).settle cmp).Perm (xs ++ ys) :=
  (confined_merge (List.subset_append_left xs ys) (List.subset_append_right xs ys)).settle cmp

theorem ascending_merge (hcmp : Preorders cmp items) (hxs : xs ⊆ items) (hys : ys ⊆ items)
    (hascxs : Ascending cmp xs) (hascys : Ascending cmp ys) :
    Ascending cmp ((merge question xs ys).settle cmp) := by
  induction xs, ys using merge.induct with
  | case1 ys => rwa [merge]
  | case2 xs => rwa [merge_nil_right]
  | case3 x xs y ys ih₁ ih₂ =>
    have hx : x ∈ items := hxs List.mem_cons_self
    have hy : y ∈ items := hys List.mem_cons_self
    rw [settle_merge_cons]
    split
    · -- the first of the second list is less than all of the first one
      next hlt =>
      refine (ih₁ hxs (List.subset_of_cons_subset hys) hascxs hascys.of_cons).cons ?_
      intro z hz
      rcases List.mem_append.1 ((settle_merge_perm cmp _ _).subset hz) with hz | hz
      · rw [hcmp.lt_of_lt_head hy hxs hascxs hlt hz]
        rfl
      · exact List.rel_of_pairwise_cons hascys hz
    · next hnot =>
      refine (ih₂ (List.subset_of_cons_subset hxs) hys hascxs.of_cons hascys).cons ?_
      intro z hz
      rcases List.mem_append.1 ((settle_merge_perm cmp _ _).subset hz) with hz | hz
      · exact List.rel_of_pairwise_cons hascxs hz
      · exact hcmp.isLE_of_isLE_head hx hys hascys (hcmp.isLE_of_not_lt hx hy hnot) hz

/-- Of the items that rank the same, those of the first list stay before those of the second. -/
theorem filter_merge (hcmp : Preorders cmp items) (hxs : xs ⊆ items) (hys : ys ⊆ items)
    (hascending : Ascending cmp xs) (ha : a ∈ items) :
    ((merge question xs ys).settle cmp).filter (alike cmp a) =
      xs.filter (alike cmp a) ++ ys.filter (alike cmp a) := by
  induction xs, ys using merge.induct with
  | case1 ys =>
    rw [merge]
    rfl
  | case2 xs =>
    rw [merge_nil_right, List.filter_nil, List.append_nil]
    rfl
  | case3 x xs y ys ih₁ ih₂ =>
    have hy : y ∈ items := hys List.mem_cons_self
    rw [settle_merge_cons]
    split
    · next hlt =>
      have ih := ih₁ hxs (List.subset_of_cons_subset hys) hascending
      by_cases halike : alike cmp a y
      · -- nothing in the first list ranks like `y`, which goes before it
        have hnone : (x :: xs).filter (alike cmp a) = [] := by
          rw [List.filter_eq_nil_iff]
          intro z hz
          rw [alike, hcmp.congr_left ha hy (hxs hz) (beq_iff_eq.1 halike),
            hcmp.lt_of_lt_head hy hxs hascending hlt hz]
          decide
        rw [List.filter_cons_of_pos halike, ih, hnone, List.filter_cons_of_pos halike]
        rfl
      · rw [List.filter_cons_of_neg halike, ih, List.filter_cons_of_neg (a := y) halike]
    · have ih := ih₂ (List.subset_of_cons_subset hxs) hys hascending.of_cons
      rw [List.filter_cons, ih, List.filter_cons (x := x)]
      split <;> rfl

/-! ## Sorting by halves -/

theorem run_sorted (order : Value → Value → Run Ordering) (items : List Value) :
    (sorted question items).run order = sorted order items := by
  fun_induction sorted question items with
  | case1 items hshort =>
    rw [sorted, if_pos hshort]
    rfl
  | case2 items hlong half ih₁ ih₂ =>
    conv_rhs => rw [sorted, if_neg hlong]
    simp only [run_bind, ih₁, ih₂, run_merge]
    rfl

theorem halves_subset (half : Nat) (hxs : xs ⊆ items) :
    xs.take half ⊆ items ∧ xs.drop half ⊆ items :=
  ⟨List.Subset.trans (List.take_subset half xs) hxs,
    List.Subset.trans (List.drop_subset half xs) hxs⟩

/-- The questions of the two halves and of merging them. -/
theorem halves_mul_clog_le {n : Nat} (hn : ¬n ≤ 1) :
    n / 2 * Nat.clog 2 (n / 2) + ((n - n / 2) * Nat.clog 2 (n - n / 2) + n) ≤ n * Nat.clog 2 n := by
  have hhalf : n - n / 2 = (n + 2 - 1) / 2 := by omega
  have hclog : Nat.clog 2 n = Nat.clog 2 (n - n / 2) + 1 := by
    rw [hhalf]
    exact Nat.clog_of_two_le Nat.one_lt_two (by omega)
  have hmono : Nat.clog 2 (n / 2) ≤ Nat.clog 2 (n - n / 2) := Nat.clog_mono_right 2 (by omega)
  calc n / 2 * Nat.clog 2 (n / 2) + ((n - n / 2) * Nat.clog 2 (n - n / 2) + n)
    _ ≤ n / 2 * Nat.clog 2 (n - n / 2) + ((n - n / 2) * Nat.clog 2 (n - n / 2) + n) :=
        Nat.add_le_add_right (Nat.mul_le_mul_left _ hmono) _
    _ = (n / 2 + (n - n / 2)) * Nat.clog 2 (n - n / 2) + n := by rw [Nat.add_mul, Nat.add_assoc]
    _ = n * Nat.clog 2 n := by rw [Nat.add_sub_cancel' (Nat.div_le_self n 2), hclog, Nat.mul_succ]

/-- Sorting loses no item and adds none. -/
theorem confined_sorted (hxs : xs ⊆ items) :
    Confined items (List.Perm · xs) (xs.length * Nat.clog 2 xs.length) (sorted question xs) := by
  fun_induction sorted question xs with
  | case1 xs hshort => exact .done (.refl _)
  | case2 xs hlong half ih₁ ih₂ =>
    obtain ⟨hleft, hright⟩ := halves_subset half hxs
    have hmerge : ∀ left, left.Perm (xs.take half) → ∀ right, right.Perm (xs.drop half) →
        Confined items (List.Perm · xs) xs.length (merge question left right) := by
      intro left hl right hr
      have happend : (left ++ right).Perm xs :=
        (hl.append hr).trans (.of_eq (List.take_append_drop half xs))
      refine (confined_merge (List.Subset.trans hl.subset hleft)
        (List.Subset.trans hr.subset hright)).mono ?_ fun zs hzs => hzs.trans happend
      rw [← List.length_append, happend.length_eq]
    have hboth := (ih₁ hleft).bind fun left hl => (ih₂ hright).bind (hmerge left hl)
    refine hboth.mono ?_ fun _ => id
    rw [List.length_take, List.length_drop, Nat.min_eq_left (Nat.div_le_self _ _)]
    exact halves_mul_clog_le hlong

theorem settle_sorted (cmp : Value → Value → Ordering) {half : Nat} (hlong : ¬xs.length ≤ 1)
    (hhalf : half = xs.length / 2) :
    (sorted question xs).settle cmp =
      (merge question ((sorted question (xs.take half)).settle cmp)
        ((sorted question (xs.drop half)).settle cmp)).settle cmp := by
  subst hhalf
  conv_lhs => rw [sorted, if_neg hlong]
  rw [settle_bind, settle_bind]

theorem settle_sorted_perm (cmp : Value → Value → Ordering) (xs : List Value) :
    ((sorted question xs).settle cmp).Perm xs :=
  (confined_sorted (List.Subset.refl xs)).settle cmp

theorem settle_sorted_subset (cmp : Value → Value → Ordering) (hxs : xs ⊆ items) :
    (sorted question xs).settle cmp ⊆ items :=
  List.Subset.trans (settle_sorted_perm cmp xs).subset hxs

theorem ascending_sorted (hcmp : Preorders cmp items) (hxs : xs ⊆ items) :
    Ascending cmp ((sorted question xs).settle cmp) := by
  induction xs using sorted.induct with
  | case1 xs hshort =>
    rw [sorted, if_pos hshort]
    match xs, hshort with
    | [], _ => exact .nil
    | [x], _ => exact List.pairwise_singleton _ x
  | case2 xs hlong half ih₁ ih₂ =>
    obtain ⟨hleft, hright⟩ := halves_subset half hxs
    rw [settle_sorted cmp hlong rfl]
    exact ascending_merge hcmp (settle_sorted_subset cmp hleft) (settle_sorted_subset cmp hright)
      (ih₁ hleft) (ih₂ hright)

theorem filter_sorted (hcmp : Preorders cmp items) (hxs : xs ⊆ items) (ha : a ∈ items) :
    ((sorted question xs).settle cmp).filter (alike cmp a) = xs.filter (alike cmp a) := by
  induction xs using sorted.induct with
  | case1 xs hshort =>
    rw [sorted, if_pos hshort]
    rfl
  | case2 xs hlong half ih₁ ih₂ =>
    obtain ⟨hleft, hright⟩ := halves_subset half hxs
    rw [settle_sorted cmp hlong rfl,
      filter_merge hcmp (settle_sorted_subset cmp hleft) (settle_sorted_subset cmp hright)
        (ascending_sorted hcmp hleft) ha,
      ih₁ hleft, ih₂ hright, ← List.filter_append, List.take_append_drop]

theorem sortedBy_sorted (hcmp : Preorders cmp items) :
    SortedBy cmp items ((sorted question items).settle cmp) where
  perm := settle_sorted_perm cmp items
  ascending := ascending_sorted hcmp (List.Subset.refl items)
  stable _ := filter_sorted hcmp (List.Subset.refl items)

end Lists

/-! ## The method -/

/-- Sorting an array compares its items as merging its halves asks. Unless a comparison gives no
integer or fails, which ends the sorting, the result is a new array of the items that there were. If
the comparisons order the items, the new array is the sorted one. -/
theorem array_sort_arranges (interp : Interp) (n : Nat) (w : World) (receiver : Value)
    (args : List Value) (block : Option Callable) (r : ListRef)
    (hr : w.heap.listRef? receiver = some r) :
    let items := (w.heap.list r).toList
    let result := Lists.run interp n .sort ⟨receiver, args, block⟩ w
    (∃ answers rest w', (Lists.sorted question items).Leads answers rest ∧
      interp.Compares w answers w' ∧ Interp.Among items answers ∧
      answers.length ≤ items.length * Nat.clog 2 items.length ∧
      Concludes interp items (List.Perm · items) newList rest w' result) ∧
    ∀ cmp, Preorders cmp items → interp.AnswersAs cmp items w →
      ∃ ys answers w', (∀ zs, SortedBy cmp items zs ↔ zs = ys) ∧
        interp.Compares w answers w' ∧ Interp.Among items answers ∧ result = newList ys w' := by
  intro items result
  have hconfined := Lists.confined_sorted (List.Subset.refl items)
  have hresult : result = ((Lists.sorted question items).run interp.order >>= newList) w := by
    have hitems : needItems receiver w = .ok (w.heap.list r) w := bind_of_ok (needs_of_some hr) _
    rw [Lists.run_sorted]
    exact bind_of_ok hitems _
  rw [hresult]
  refine ⟨hconfined.exists_compares interp newList w, ?_⟩
  intro cmp hcmp hanswers
  have hsorted := Lists.sortedBy_sorted hcmp
  obtain ⟨answers, w', hcompares, hamong, hrun⟩ := hconfined.run_of_answersAs hanswers newList
  refine ⟨_, answers, w', fun zs => ⟨fun hzs => hzs.eq hcmp hsorted, ?_⟩, hcompares, hamong, hrun⟩
  rintro rfl
  exact hsorted

/-- Two strings of the same characters keep their order. -/
theorem array_sort_arranges_strings :
    let w : World := { heap := { Core.heap with
      texts := ⟨#["b", "a", "a"]⟩
      lists := ⟨#[#[.str ⟨0⟩, .str ⟨1⟩, .str ⟨2⟩]]⟩ } }
    Lists.run (interpreter 1) 0 .sort ⟨.array ⟨0⟩, [], none⟩ w =
      newList [.str ⟨1⟩, .str ⟨2⟩, .str ⟨0⟩] w := by
  intro w
  let items : List Value := [.str ⟨0⟩, .str ⟨1⟩, .str ⟨2⟩]
  let cmp (x y : Value) : Ordering := compare (w.heap.text? x) (w.heap.text? y)
  have hcmp : Preorders cmp items :=
    inferInstanceAs (Std.TransCmp (compareOn fun x : { v // v ∈ items } => w.heap.text? x))
  have hunchanged : ∀ x ∈ items, ∀ y ∈ items,
      ∃ c, (interpreter 1).send x "<=>" [y] none w = .ok (.int c) w ∧
        compare c.toInt 0 = cmp x y := by
    have hstrings : ∀ x ∈ items, ∃ r, x = .str r := by
      simp only [items, List.forall_mem_cons]
      exact ⟨⟨_, rfl⟩, ⟨_, rfl⟩, ⟨_, rfl⟩, nofun⟩
    intro x hx y hy
    obtain ⟨r, rfl⟩ := hstrings x hx
    obtain ⟨s, rfl⟩ := hstrings y hy
    have hsend : (interpreter 1).send (.str r) "<=>" [.str s] none w =
        .ok (Arithmetic.orderValue (cmp (.str r) (.str s))) w := rfl
    rw [hsend]
    cases cmp (.str r) (.str s) with
    | lt | eq | gt => exact ⟨_, rfl, by decide⟩
  obtain ⟨-, hpreorder⟩ := array_sort_arranges (interpreter 1) 0 w (.array ⟨0⟩) [] none ⟨0⟩ rfl
  obtain ⟨ys, answers, w', hys, hcompares, hamong, hresult⟩ :=
    hpreorder cmp hcmp (.of_unchanged hunchanged)
  have hw : w' = w := hcompares.eq_of_unchanged hamong fun x hx y hy =>
    (hunchanged x hx y hy).imp fun _ => And.left
  have hsorted : SortedBy cmp items [.str ⟨1⟩, .str ⟨2⟩, .str ⟨0⟩] := by
    refine ⟨List.perm_append_singleton _ [_, _], ?_, ?_⟩
    · simp only [Ascending, List.pairwise_cons, List.forall_mem_cons]
      decide +kernel
    · have halike : ∀ i < 3, ∀ j < 3,
          alike cmp (.str ⟨i⟩) (.str ⟨j⟩) = ((i == 0) == (j == 0)) := by decide +kernel
      simp [items, List.filter_cons, halike]
  rw [hresult, hw, ← (hys _).1 hsorted]

end Spinel
