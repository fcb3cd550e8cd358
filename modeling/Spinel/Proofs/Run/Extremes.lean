import Spinel.Proofs.Run.Sorting

/-!
# The least and the greatest item

One pass over an array finds its least or greatest item. It keeps the best item so far, and another
one takes its place only if it is ahead of it, so that of those that rank the same the first is
found (`Foremost`). Where the methods `<=>` order the items, the least one is the very item that
sorting puts first. The greatest one is the first that no item exceeds, and it ranks like the one
that sorting puts last (`array_extremes_agree_with_sort`).
-/

namespace Spinel

open Run Inquiry

variable {cmp : Value → Value → Ordering} {wanted : Ordering} {items rest ys : List Value}
  {found : Option Value}

/-! ## The first item that is ahead -/

/-- An item of a list that is ahead of all before it, while none behind it is ahead of it. How an
item compares to those that it is ahead of is `wanted`. Only an empty list has none. -/
inductive Foremost (cmp : Value → Value → Ordering) (wanted : Ordering) (items : List Value) :
    Option Value → Prop
  | empty (hitems : items = []) : Foremost cmp wanted items none
  | item (before after : List Value) {v : Value} (hitems : items = before ++ v :: after)
      (hbefore : ∀ u ∈ before, cmp v u = wanted) (hafter : ∀ u ∈ after, cmp u v ≠ wanted) :
      Foremost cmp wanted items (some v)

/-- No item exceeds a value. -/
def unexceeded (cmp : Value → Value → Ordering) (items : List Value) (v : Value) : Bool :=
  items.all fun u => cmp u v != .gt

namespace Preorders

variable {x y z : Value}

theorem eq_swap (h : Preorders cmp items) (hx : x ∈ items) (hy : y ∈ items) :
    cmp x y = (cmp y x).swap :=
  @Std.OrientedCmp.eq_swap _ _ h.toOrientedCmp ⟨x, hx⟩ ⟨y, hy⟩

/-- What is ahead of a value is ahead of all that are not ahead of that value. -/
theorem ahead_of_not_ahead (h : Preorders cmp items) (hwanted : wanted ≠ .eq) (hx : x ∈ items)
    (hy : y ∈ items) (hz : z ∈ items) (hxy : cmp x y = wanted) (hzy : cmp z y ≠ wanted) :
    cmp x z = wanted := by
  cases wanted with
  | eq => exact absurd rfl hwanted
  | lt =>
    exact @Std.TransCmp.lt_of_lt_of_isLE _ _ h ⟨x, hx⟩ ⟨y, hy⟩ ⟨z, hz⟩ hxy
      (h.isLE_of_not_lt hy hz hzy)
  | gt =>
    have hyx : cmp y x = .lt := by rw [h.eq_swap hy hx, hxy]; rfl
    have hzx : cmp z x = .lt := @Std.TransCmp.lt_of_isLE_of_lt _ _ h ⟨z, hz⟩ ⟨y, hy⟩ ⟨x, hx⟩
      (Ordering.isLE_iff_ne_gt.2 hzy) hyx
    rw [h.eq_swap hx hz, hzx]
    rfl

theorem not_ahead_of_ahead (h : Preorders cmp items) (hwanted : wanted ≠ .eq) (hx : x ∈ items)
    (hy : y ∈ items) (hxy : cmp x y = wanted) : cmp y x ≠ wanted := by
  rw [h.eq_swap hy hx, hxy]
  cases wanted with
  | eq => exact absurd rfl hwanted
  | lt | gt => decide

end Preorders

namespace Foremost

variable {best next v : Value}

/-- An item that is ahead of the best one so far takes its place. -/
theorem replace (hcmp : Preorders cmp items) (hwanted : wanted ≠ .eq) (hbest : best ∈ items)
    (hrest : next :: rest ⊆ items) (hahead : cmp next best = wanted)
    (h : Foremost cmp wanted (next :: rest) found) :
    Foremost cmp wanted (best :: next :: rest) found := by
  cases h with
  | empty hitems => cases hitems
  | @item before after v hitems hbefore hafter =>
    refine .item (best :: before) after (congrArg (best :: ·) hitems) ?_ hafter
    refine List.forall_mem_cons.2 ⟨?_, hbefore⟩
    cases before with
    | nil =>
      cases hitems
      exact hahead
    | cons u before =>
      cases hitems
      have hv : v ∈ items := hrest (by simp)
      have hnext : next ∈ items := hrest List.mem_cons_self
      exact hcmp.ahead_of_not_ahead hwanted hv hnext hbest (hbefore _ List.mem_cons_self)
        (hcmp.not_ahead_of_ahead hwanted hnext hbest hahead)

/-- An item that is not ahead of the best one so far can be left out. -/
theorem skip (hcmp : Preorders cmp items) (hwanted : wanted ≠ .eq) (hbest : best ∈ items)
    (hrest : next :: rest ⊆ items) (hbehind : cmp next best ≠ wanted)
    (h : Foremost cmp wanted (best :: rest) found) :
    Foremost cmp wanted (best :: next :: rest) found := by
  cases h with
  | empty hitems => cases hitems
  | @item before after v hitems hbefore hafter =>
    cases before with
    | nil =>
      cases hitems
      exact .item [] (next :: rest) rfl (List.forall_mem_nil _)
        (List.forall_mem_cons.2 ⟨hbehind, hafter⟩)
    | cons u before =>
      cases hitems
      obtain ⟨hfirst, hbefore⟩ := List.forall_mem_cons.1 hbefore
      have hv : v ∈ items := hrest (by simp)
      have hnext : cmp v next = wanted :=
        hcmp.ahead_of_not_ahead hwanted hv hbest (hrest List.mem_cons_self) hfirst hbehind
      exact .item (best :: next :: before) after rfl
        (List.forall_mem_cons.2 ⟨hfirst, List.forall_mem_cons.2 ⟨hnext, hbefore⟩⟩) hafter

theorem mem (h : Foremost cmp wanted items (some v)) : v ∈ items := by
  cases h with
  | item _ _ hitems => exact hitems ▸ List.mem_append_right _ List.mem_cons_self

theorem not_ahead (hcmp : Preorders cmp items) (hwanted : wanted ≠ .eq)
    (h : Foremost cmp wanted items (some v)) {u : Value} (hu : u ∈ items) : cmp u v ≠ wanted := by
  have hv := h.mem
  cases h with
  | item _ _ hitems hbefore hafter =>
    have hcases := hu
    rw [hitems, List.mem_append, List.mem_cons] at hcases
    rcases hcases with hu' | rfl | hu'
    · exact hcmp.not_ahead_of_ahead hwanted hv hu (hbefore u hu')
    · rw [hcmp.compare_self hv]
      exact hwanted.symm
    · exact hafter u hu'

/-- The first of the least items is the one that sorting puts first. -/
theorem eq_head? (hcmp : Preorders cmp items) (hsorted : SortedBy cmp items ys)
    (h : Foremost cmp .lt items found) : found = ys.head? := by
  have hperm := hsorted.perm
  match found, ys, hsorted with
  | none, ys, hsorted =>
    cases h with
    | empty hitems =>
      subst hitems
      rw [hperm.eq_nil]
      rfl
  | some v, [], hsorted => cases hperm.symm.subset h.mem
  | some v, y :: ys, hsorted =>
    have hv := h.mem
    have hy : y ∈ items := hperm.subset List.mem_cons_self
    have hvy : (cmp v y).isLE := hcmp.isLE_of_not_lt hv hy (h.not_ahead hcmp (by decide) hy)
    have hyv : (cmp y v).isLE :=
      hcmp.head_isLE hperm.subset hsorted.ascending (hperm.symm.subset hv)
    have halike : alike cmp v y := hcmp.alike_of_isLE hv hy hvy hyv
    have hself : alike cmp v v := beq_iff_eq.2 (hcmp.compare_self hv)
    cases h with
    | @item before after _ hitems hbefore _ =>
      have hnone : before.filter (alike cmp v) = [] := by
        rw [List.filter_eq_nil_iff]
        intro u hu
        rw [alike, hbefore u hu]
        decide
      -- both lists of the items that rank like `v` are the same, and these are their first members
      have hstable := hsorted.stable v hv
      rw [List.filter_cons_of_pos halike, hitems, List.filter_append, hnone,
        List.filter_cons_of_pos hself] at hstable
      rw [(List.cons.inj hstable).1]
      rfl

/-- The first of the greatest items is the first that no item exceeds. -/
theorem eq_find? (hcmp : Preorders cmp items) (h : Foremost cmp .gt items found) :
    found = items.find? (unexceeded cmp items) := by
  cases hfound : found with
  | none =>
    subst hfound
    cases h with
    | empty hitems =>
      rw [hitems]
      rfl
  | some v =>
    subst hfound
    have hgreatest : unexceeded cmp items v = true :=
      List.all_eq_true.2 fun u hu => bne_iff_ne.2 (h.not_ahead hcmp (by decide) hu)
    have hv := h.mem
    cases h with
    | @item before after _ hitems hbefore _ =>
      refine (List.find?_eq_some_iff_append.2 ⟨hgreatest, before, after, hitems, ?_⟩).symm
      intro u hu
      rw [Bool.not_eq_true']
      exact List.all_eq_false.2 ⟨v, hv, by simp [hbefore u hu]⟩

end Foremost

/-- Nothing in an ascending list exceeds its last. -/
theorem Preorders.isLE_last {front : List Value} {y z : Value} (hcmp : Preorders cmp items)
    (hsub : front ++ [y] ⊆ items) (hascending : Ascending cmp (front ++ [y]))
    (hz : z ∈ front ++ [y]) : (cmp z y).isLE := by
  rcases List.mem_append.1 hz with hz | hz
  · exact (List.pairwise_append.1 hascending).2.2 z hz y List.mem_cons_self
  · have hy : y ∈ items := hsub (List.mem_append_right _ List.mem_cons_self)
    rw [List.mem_singleton.1 hz, hcmp.compare_self hy]
    rfl

/-- The first of the greatest items ranks like the item that sorting puts last. -/
theorem Foremost.rel_getLast? (hcmp : Preorders cmp items) (hsorted : SortedBy cmp items ys)
    (h : Foremost cmp .gt items found) :
    Option.Rel (fun x y => cmp x y = .eq) found ys.getLast? := by
  have hperm := hsorted.perm
  match found, h with
  | none, .empty hitems =>
    subst hitems
    rw [hperm.eq_nil]
    exact .none
  | some v, h =>
    have hv : v ∈ ys := hperm.symm.subset h.mem
    obtain ⟨front, y, rfl⟩ : ∃ front y, ys = front ++ [y] :=
      ⟨_, _, (List.dropLast_concat_getLast (List.ne_nil_of_mem hv)).symm⟩
    have hy : y ∈ items := hperm.subset (List.mem_append_right _ List.mem_cons_self)
    have hvy : (cmp v y).isLE := hcmp.isLE_last hperm.subset hsorted.ascending hv
    have hyv : (cmp y v).isLE := Ordering.isLE_iff_ne_gt.2 (h.not_ahead hcmp (by decide) hy)
    rw [List.getLast?_concat]
    exact .some (beq_iff_eq.1 (hcmp.alike_of_isLE h.mem hy hvy hyv))

/-! ## One pass -/

namespace Lists

/-- The questions that are asked on the way to the foremost item. -/
def survey (wanted : Ordering) : (best : Option Value) → List Value → Inquiry (Option Value)
  | best, [] => done best
  | none, next :: rest => survey wanted (some next) rest
  | some best, next :: rest =>
    ask next best fun o => survey wanted (some (if o == wanted then next else best)) rest

theorem run_survey (interp : Interp) (wanted : Ordering) (best : Option Value)
    (items : List Value) :
    ((survey wanted best items).run interp.order >>= fun found => pure (.ofOption found)) =
      extreme interp wanted best items := by
  induction items generalizing best with
  | nil => cases best <;> rfl
  | cons next rest ih =>
    cases best with
    | none => exact ih (some next)
    | some best =>
      rw [survey, Inquiry.run, bind_assoc, extreme]
      congr 1
      funext o
      exact ih _

theorem confined_survey (wanted : Ordering) (best : Option Value) (hbest : best.toList ⊆ items)
    (hrest : rest ⊆ items) :
    Confined items (fun _ => True) rest.length (survey wanted best rest) := by
  induction rest generalizing best with
  | nil => cases best <;> exact .done trivial
  | cons next rest ih =>
    obtain ⟨hnext, hrest⟩ := List.cons_subset.1 hrest
    have hkept : ∀ v ∈ items,
        Confined items (fun _ => True) rest.length (survey wanted (some v) rest) :=
      fun v hv => ih (some v) (List.cons_subset.2 ⟨hv, List.nil_subset _⟩) hrest
    cases best with
    | none => exact (hkept next hnext).mono (Nat.le_succ _) fun _ => id
    | some best =>
      have hbest : best ∈ items := hbest List.mem_cons_self
      refine .ask hnext hbest fun o => hkept _ ?_
      split
      · exact hnext
      · exact hbest

/-- The item that is kept at the end of the pass is the foremost one. -/
theorem foremost_survey (hcmp : Preorders cmp items) (hwanted : wanted ≠ .eq) (best : Option Value)
    (hsub : best.toList ++ rest ⊆ items) :
    Foremost cmp wanted (best.toList ++ rest) ((survey wanted best rest).settle cmp) := by
  induction rest generalizing best with
  | nil =>
    cases best with
    | none => exact .empty rfl
    | some best => exact .item [] [] rfl (List.forall_mem_nil _) (List.forall_mem_nil _)
  | cons next rest ih =>
    cases best with
    | none => exact ih (some next) hsub
    | some best =>
      obtain ⟨hbest, hrest⟩ := List.cons_subset.1 hsub
      change Foremost _ _ _
        ((survey wanted (some (if cmp next best == wanted then next else best)) rest).settle cmp)
      by_cases hahead : cmp next best = wanted
      · rw [if_pos (beq_iff_eq.2 hahead)]
        exact (ih (some next) hrest).replace hcmp hwanted hbest hrest hahead
      · rw [if_neg (mt beq_iff_eq.1 hahead)]
        have hfewer : best :: rest ⊆ items :=
          List.cons_subset.2 ⟨hbest, List.subset_of_cons_subset hrest⟩
        exact (ih (some best) hfewer).skip hcmp hwanted hbest hrest hahead

/-- Where the methods `<=>` order the items, one pass finds the foremost one. -/
theorem exists_extreme {interp : Interp} {w : World} (hcmp : Preorders cmp items)
    (hanswers : interp.AnswersAs cmp items w) (wanted : Ordering) (hwanted : wanted ≠ .eq) :
    ∃ found answers w', Foremost cmp wanted items found ∧ interp.Compares w answers w' ∧
      Interp.Among items answers ∧
      extreme interp wanted none items w = .ok (.ofOption found) w' := by
  have hconfined := confined_survey wanted none (List.nil_subset _) (List.Subset.refl items)
  obtain ⟨answers, w', hcompares, hamong, hrun⟩ :=
    hconfined.run_of_answersAs hanswers fun found => pure (.ofOption found)
  rw [run_survey] at hrun
  exact ⟨_, answers, w', foremost_survey hcmp hwanted none (List.Subset.refl items),
    hcompares, hamong, hrun⟩

/-- Where the methods `<=>` order the items, sorting arranges them. -/
theorem exists_sorted {interp : Interp} {w : World} (hcmp : Preorders cmp items)
    (hanswers : interp.AnswersAs cmp items w) :
    ∃ ys answers w', SortedBy cmp items ys ∧ interp.Compares w answers w' ∧
      Interp.Among items answers ∧ (sorted interp.order items >>= newList) w = newList ys w' := by
  have hconfined := confined_sorted (List.Subset.refl items)
  obtain ⟨answers, w', hcompares, hamong, hrun⟩ := hconfined.run_of_answersAs hanswers newList
  rw [run_sorted] at hrun
  exact ⟨_, answers, w', sortedBy_sorted hcmp, hcompares, hamong, hrun⟩

end Lists

/-! ## The methods -/

/-- Where the methods `<=>` order the items of an array, `min` gives the very item that `sort` puts
first. `max` gives the first item that no item exceeds, which ranks like the one that `sort` puts
last. Both give `nil` for an empty array. -/
theorem array_extremes_agree_with_sort (interp : Interp) (n : Nat) (w : World) (receiver : Value)
    (args : List Value) (block : Option Callable) (r : ListRef)
    (hr : w.heap.listRef? receiver = some r) (cmp : Value → Value → Ordering)
    (hcmp : Preorders cmp (w.heap.list r).toList)
    (hanswers : interp.AnswersAs cmp (w.heap.list r).toList w) :
    let items := (w.heap.list r).toList
    let result (m : ArrayMethod) := Lists.run interp n m ⟨receiver, args, block⟩ w
    let Compared (w' : World) :=
      ∃ answers, interp.Compares w answers w' ∧ Interp.Among items answers
    ∃ ys, SortedBy cmp items ys ∧ (∃ w', Compared w' ∧ result .sort = newList ys w') ∧
      (∃ w', Compared w' ∧ result .least = .ok (.ofOption ys.head?) w') ∧
      ∃ greatest, (∃ w', Compared w' ∧ result .greatest = .ok (.ofOption greatest) w') ∧
        greatest = items.find? (unexceeded cmp items) ∧
        Option.Rel (fun x y => cmp x y = .eq) greatest ys.getLast? := by
  intro items result Compared
  have hitems : needItems receiver w = .ok (w.heap.list r) w := bind_of_ok (needs_of_some hr) _
  obtain ⟨ys, answers, w₁, hsorted, hcompares, hamong, hsort⟩ := Lists.exists_sorted hcmp hanswers
  obtain ⟨least, answers₂, w₂, hleast, hcompares₂, hamong₂, hmin⟩ :=
    Lists.exists_extreme hcmp hanswers .lt (by decide)
  obtain ⟨greatest, answers₃, w₃, hgreatest, hcompares₃, hamong₃, hmax⟩ :=
    Lists.exists_extreme hcmp hanswers .gt (by decide)
  refine ⟨ys, hsorted, ⟨w₁, ⟨answers, hcompares, hamong⟩, ?_⟩,
    ⟨w₂, ⟨answers₂, hcompares₂, hamong₂⟩, ?_⟩, greatest,
    ⟨w₃, ⟨answers₃, hcompares₃, hamong₃⟩, ?_⟩, hgreatest.eq_find? hcmp,
    hgreatest.rel_getLast? hcmp hsorted⟩
  · exact (bind_of_ok hitems _).trans hsort
  · rw [← hleast.eq_head? hcmp hsorted]
    exact (bind_of_ok hitems _).trans hmin
  · exact (bind_of_ok hitems _).trans hmax

/-- Of strings with the same characters, both the least and the greatest one found are the first. -/
theorem array_extremes_agree_with_sort_strings :
    let w : World := { heap := { Core.heap with
      texts := ⟨#["b", "a", "a", "b"]⟩
      lists := ⟨#[#[.str ⟨0⟩, .str ⟨1⟩, .str ⟨2⟩, .str ⟨3⟩]]⟩ } }
    let result (m : ArrayMethod) := Lists.run (interpreter 1) 0 m ⟨.array ⟨0⟩, [], none⟩ w
    result .sort = newList [.str ⟨1⟩, .str ⟨2⟩, .str ⟨0⟩, .str ⟨3⟩] w ∧
      result .least = .ok (.str ⟨1⟩) w ∧ result .greatest = .ok (.str ⟨0⟩) w := by
  intro w result
  let items : List Value := [.str ⟨0⟩, .str ⟨1⟩, .str ⟨2⟩, .str ⟨3⟩]
  let cmp (x y : Value) : Ordering := compare (w.heap.text? x) (w.heap.text? y)
  have hcmp : Preorders cmp items :=
    inferInstanceAs (Std.TransCmp (compareOn fun x : { v // v ∈ items } => w.heap.text? x))
  have hunchanged : ∀ x ∈ items, ∀ y ∈ items,
      ∃ c, (interpreter 1).send x "<=>" [y] none w = .ok (.int c) w ∧
        compare c.toInt 0 = cmp x y := by
    have hstrings : ∀ x ∈ items, ∃ r, x = .str r := by simp [items]
    intro x hx y hy
    obtain ⟨i, rfl⟩ := hstrings x hx
    obtain ⟨j, rfl⟩ := hstrings y hy
    have hsend : (interpreter 1).send (.str i) "<=>" [.str j] none w =
        .ok (Arithmetic.orderValue (cmp (.str i) (.str j))) w := rfl
    rw [hsend]
    cases cmp (.str i) (.str j) with
    | lt | eq | gt => exact ⟨_, rfl, by decide⟩
  have hsorted : SortedBy cmp items [.str ⟨1⟩, .str ⟨2⟩, .str ⟨0⟩, .str ⟨3⟩] := by
    refine ⟨@List.perm_middle _ _ [_, _] _, ?_, ?_⟩
    · simp only [Ascending, List.pairwise_cons, List.forall_mem_cons]
      decide +kernel
    · have halike : ∀ i < 4, ∀ j < 4, alike cmp (.str ⟨i⟩) (.str ⟨j⟩) =
          ((i == 0 || i == 3) == (j == 0 || j == 3)) := by decide +kernel
      simp [items, List.filter_cons, halike]
  have hsame : ∀ w', (∃ answers, (interpreter 1).Compares w answers w' ∧
      Interp.Among items answers) → w' = w := by
    rintro w' ⟨answers, hcompares, hamong⟩
    exact hcompares.eq_of_unchanged hamong fun x hx y hy =>
      (hunchanged x hx y hy).imp fun _ => And.left
  obtain ⟨ys, hys, ⟨w₁, hw₁, hsort⟩, ⟨w₂, hw₂, hmin⟩, greatest, ⟨w₃, hw₃, hmax⟩, hgreatest, -⟩ :=
    array_extremes_agree_with_sort (interpreter 1) 0 w (.array ⟨0⟩) [] none ⟨0⟩ rfl cmp hcmp
      (.of_unchanged hunchanged)
  obtain rfl : ys = _ := hys.eq hcmp hsorted
  have hfirst : greatest = some (.str ⟨0⟩) := by
    rw [hgreatest]
    exact List.find?_cons_of_pos (by decide +kernel)
  rw [hsame w₁ hw₁] at hsort
  rw [hsame w₂ hw₂] at hmin
  rw [hsame w₃ hw₃, hfirst] at hmax
  exact ⟨hsort, hmin, hmax⟩

end Spinel
