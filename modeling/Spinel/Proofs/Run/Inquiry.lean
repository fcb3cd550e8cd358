import Spinel.Dispatch
import Spinel.Proofs.Computation

/-!
# Asking how values compare

An `Inquiry` is a computation that asks how values compare, apart from who answers. What it does for
all answers (`Inquiry.Confined`) holds whatever the methods `<=>` of the values do: they are called
one after the other as the inquiry asks, up to its end or to the first that gives no integer
(`Inquiry.Confined.exists_compares`). If they always answer as some function does, that function
settles the inquiry (`Inquiry.Confined.run_of_answersAs`).
-/

namespace Spinel

/-! ## Comparisons of values -/

/-- How one value compares to another. -/
structure Answer where
  left : Value
  right : Value
  order : Ordering

namespace Interp

variable {interp : Interp} {items : List Value} {cmp : Value → Value → Ordering} {w w' w'' : World}
  {x y : Value} {answers : List Answer}

/-- Values are compared one after the other, and each comparison gives an integer. -/
inductive Compares (interp : Interp) : World → List Answer → World → Prop
  | nil {w : World} : interp.Compares w [] w
  | cons {x y : Value} {c : Int64} {answers : List Answer} {w w' w'' : World}
      (hsend : interp.send x "<=>" [y] none w = .ok (.int c) w')
      (rest : interp.Compares w' answers w'') :
      interp.Compares w (⟨x, y, compare c.toInt 0⟩ :: answers) w''

/-- All comparisons are between the items. -/
def Among (items : List Value) (answers : List Answer) : Prop :=
  ∀ a ∈ answers, a.left ∈ items ∧ a.right ∈ items

theorem Among.nil : Among items [] := List.forall_mem_nil _

theorem Among.cons {o : Ordering} (hx : x ∈ items) (hy : y ∈ items) (h : Among items answers) :
    Among items (⟨x, y, o⟩ :: answers) :=
  List.forall_mem_cons.2 ⟨⟨hx, hy⟩, h⟩

/-- However items were compared before, comparing two of them gives an integer whose sign a function
of the two tells. -/
def AnswersAs (interp : Interp) (cmp : Value → Value → Ordering) (items : List Value)
    (w : World) : Prop :=
  ∀ answers w', Among items answers → interp.Compares w answers w' → ∀ x ∈ items, ∀ y ∈ items,
    ∃ c w'', interp.send x "<=>" [y] none w' = .ok (.int c) w'' ∧ compare c.toInt 0 = cmp x y

theorem AnswersAs.after {c : Int64} (h : interp.AnswersAs cmp items w) (hx : x ∈ items)
    (hy : y ∈ items) (hsend : interp.send x "<=>" [y] none w = .ok (.int c) w') :
    interp.AnswersAs cmp items w' :=
  fun _ _ hamong hcompares => h _ _ (hamong.cons hx hy) (hcompares.cons hsend)

theorem Compares.eq_of_unchanged (hcompares : interp.Compares w answers w')
    (hamong : Among items answers)
    (h : ∀ x ∈ items, ∀ y ∈ items, ∃ c, interp.send x "<=>" [y] none w = .ok (.int c) w) :
    w' = w := by
  induction hcompares with
  | nil => rfl
  | cons hsend _ ih =>
    obtain ⟨⟨hx, hy⟩, hamong⟩ := List.forall_mem_cons.1 hamong
    obtain ⟨c, hunchanged⟩ := h _ hx _ hy
    rw [hunchanged] at hsend
    cases hsend
    exact ih hamong h

/-- Comparisons that leave the state as it is have to be looked at only there. -/
theorem AnswersAs.of_unchanged
    (h : ∀ x ∈ items, ∀ y ∈ items, ∃ c, interp.send x "<=>" [y] none w = .ok (.int c) w ∧
      compare c.toInt 0 = cmp x y) : interp.AnswersAs cmp items w := by
  intro answers w' hamong hcompares x hx y hy
  have hw : w' = w := hcompares.eq_of_unchanged hamong fun x hx y hy =>
    (h x hx y hy).imp fun _ => And.left
  subst hw
  obtain ⟨c, hsend, hc⟩ := h x hx y hy
  exact ⟨c, w', hsend, hc⟩

theorem order_of_int {c : Int64} (hsend : interp.send x "<=>" [y] none w = .ok (.int c) w') :
    interp.order x y w = .ok (compare c.toInt 0) w' :=
  bind_of_ok hsend _

theorem order_of_not_int {v : Value} (hsend : interp.send x "<=>" [y] none w = .ok v w')
    (hv : v.int? = none) :
    interp.order x y w = .error (.failed { fault := .invalidArgument "comparison failed" }) w' := by
  refine (bind_of_ok hsend _).trans ?_
  cases v with
  | int c => cases hv
  | nil | bool | float | symbol | str | array | hash | range | klass | proc | object => rfl

theorem order_of_error {e : Halt} (hsend : interp.send x "<=>" [y] none w = .error e w') :
    interp.order x y w = .error e w' :=
  bind_of_error hsend _

end Interp

/-! ## Inquiries -/

/-- A computation that asks how values compare. -/
inductive Inquiry (α : Type) where
  | done (a : α)
  /-- How does `x` compare to `y`? -/
  | ask (x y : Value) (next : Ordering → Inquiry α)

namespace Inquiry

variable {α β : Type} {items : List Value} {P : α → Prop} {Q : β → Prop} {j k : Nat}
  {t : Inquiry α}

protected def bind : Inquiry α → (α → Inquiry β) → Inquiry β
  | done a, f => f a
  | ask x y next, f => ask x y fun o => (next o).bind f

instance : Monad Inquiry where
  pure := done
  bind := Inquiry.bind

/-- Ask one question. -/
def question (x y : Value) : Inquiry Ordering := ask x y done

/-- Answers to the questions of an inquiry lead to what is left of it. -/
inductive Leads : Inquiry α → List Answer → Inquiry α → Prop
  | nil {t : Inquiry α} : Leads t [] t
  | cons {x y : Value} {o : Ordering} {next : Ordering → Inquiry α} {answers : List Answer}
      {t : Inquiry α} (rest : Leads (next o) answers t) :
      Leads (ask x y next) (⟨x, y, o⟩ :: answers) t

/-- Whatever the answers are, at most `k` questions are asked, all about the items, and what is
found has a property. -/
inductive Confined (items : List Value) (P : α → Prop) : Nat → Inquiry α → Prop
  | done {k : Nat} {a : α} (ha : P a) : Confined items P k (done a)
  | ask {k : Nat} {x y : Value} {next : Ordering → Inquiry α} (hx : x ∈ items) (hy : y ∈ items)
      (hnext : ∀ o, Confined items P k (next o)) : Confined items P (k + 1) (ask x y next)

theorem Confined.mono {P' : α → Prop} (h : Confined items P j t) (hjk : j ≤ k)
    (hP : ∀ a, P a → P' a) : Confined items P' k t := by
  induction h generalizing k with
  | done ha => exact .done (hP _ ha)
  | ask hx hy _ ih =>
    obtain ⟨k, rfl⟩ := Nat.exists_eq_add_of_le' (Nat.le_of_add_left_le hjk)
    exact .ask hx hy fun o => ih o (Nat.le_of_succ_le_succ hjk)

theorem Confined.bind {f : α → Inquiry β} (h : Confined items P j t)
    (hf : ∀ a, P a → Confined items Q k (f a)) : Confined items Q (j + k) (t >>= f) := by
  induction h with
  | done ha => exact (hf _ ha).mono (Nat.le_add_left _ _) fun _ => id
  | @ask j _ _ _ hx hy _ ih =>
    rw [Nat.add_right_comm]
    exact .ask hx hy ih

/-! ## Answers that are known -/

/-- What is found if a function tells the answers. -/
def settle (cmp : Value → Value → Ordering) : Inquiry α → α
  | done a => a
  | ask x y next => (next (cmp x y)).settle cmp

theorem settle_bind (cmp : Value → Value → Ordering) (t : Inquiry α) (f : α → Inquiry β) :
    (t >>= f).settle cmp = (f (t.settle cmp)).settle cmp := by
  induction t with
  | done a => rfl
  | ask x y next ih => exact ih (cmp x y)

theorem Confined.settle (h : Confined items P k t) (cmp : Value → Value → Ordering) :
    P (t.settle cmp) := by
  induction h with
  | done ha => exact ha
  | ask _ _ _ ih => exact ih _

/-! ## Answers of the values -/

/-- Run a computation for each question. -/
def run (order : Value → Value → Run Ordering) : Inquiry α → Run α
  | done a => pure a
  | ask x y next => do
    let o ← order x y
    (next o).run order

theorem run_bind (order : Value → Value → Run Ordering) (t : Inquiry α) (f : α → Inquiry β) :
    (t >>= f).run order = (do let a ← t.run order; (f a).run order) := by
  induction t with
  | done a => rfl
  | ask x y next ih =>
    change (order x y >>= fun o => (next o >>= f).run order) = _
    simp only [ih, run, bind_assoc]

theorem run_question (order : Value → Value → Run Ordering) (x y : Value) :
    (question x y).run order = order x y := bind_pure (order x y)

variable {interp : Interp} {next : α → Run Value} {w w' : World} {x y : Value}

theorem run_ask_of_ok {o : Ordering} {rest : Ordering → Inquiry α}
    (ho : interp.order x y w = .ok o w') :
    ((ask x y rest).run interp.order >>= next) w =
      ((rest o).run interp.order >>= next) w' := by
  rw [run, bind_assoc]
  exact bind_of_ok ho _

theorem run_ask_of_error {e : Halt} {rest : Ordering → Inquiry α}
    (he : interp.order x y w = .error e w') :
    ((ask x y rest).run interp.order >>= next) w = .error e w' := by
  rw [run, bind_assoc]
  exact bind_of_error he _

/-- An inquiry comes to its end. Either something is found, with which `next` goes on, or two of the
items do not compare by an integer, or comparing them fails. -/
inductive Concludes (interp : Interp) (items : List Value) (P : α → Prop) (next : α → Run Value) :
    Inquiry α → World → EStateM.Result Halt World Value → Prop
  | found {a : α} {w : World} (ha : P a) : Concludes interp items P next (done a) w (next a w)
  | unordered {x y v : Value} {rest : Ordering → Inquiry α} {w w' : World} (hx : x ∈ items)
      (hy : y ∈ items) (hsend : interp.send x "<=>" [y] none w = .ok v w') (hv : v.int? = none) :
      Concludes interp items P next (ask x y rest) w
        (.error (.failed { fault := .invalidArgument "comparison failed" }) w')
  | failed {x y : Value} {e : Halt} {rest : Ordering → Inquiry α} {w w' : World} (hx : x ∈ items)
      (hy : y ∈ items) (hsend : interp.send x "<=>" [y] none w = .error e w') :
      Concludes interp items P next (ask x y rest) w (.error e w')

/-- Whatever the values do, they are compared as the inquiry asks until it comes to its end. -/
theorem Confined.exists_compares (h : Confined items P k t) (interp : Interp) (next : α → Run Value)
    (w : World) :
    ∃ answers t' w', t.Leads answers t' ∧ interp.Compares w answers w' ∧
      Interp.Among items answers ∧ answers.length ≤ k ∧
      Concludes interp items P next t' w' ((t.run interp.order >>= next) w) := by
  induction h generalizing w with
  | done ha => exact ⟨[], _, w, .nil, .nil, .nil, Nat.zero_le _, .found ha⟩
  | @ask k x y rest hx hy _ ih =>
    cases hsend : interp.send x "<=>" [y] none w with
    | error e w' =>
      rw [run_ask_of_error (Interp.order_of_error hsend)]
      exact ⟨[], _, w, .nil, .nil, .nil, Nat.zero_le _, .failed hx hy hsend⟩
    | ok v w' =>
      cases hv : v.int? with
      | none =>
        rw [run_ask_of_error (Interp.order_of_not_int hsend hv)]
        exact ⟨[], _, w, .nil, .nil, .nil, Nat.zero_le _, .unordered hx hy hsend hv⟩
      | some c =>
        obtain rfl : v = .int c := by cases v <;> simp_all [Value.int?]
        obtain ⟨answers, t', w'', hleads, hcompares, hamong, hlength, hconcludes⟩ :=
          ih (compare c.toInt 0) w'
        rw [run_ask_of_ok (Interp.order_of_int hsend)]
        exact ⟨_ :: answers, t', w'', hleads.cons, hcompares.cons hsend, hamong.cons hx hy,
          Nat.succ_le_succ hlength, hconcludes⟩

/-- Values that always answer as a function does lead to what that function settles. -/
theorem Confined.run_of_answersAs (h : Confined items P k t) {cmp : Value → Value → Ordering}
    (hanswers : interp.AnswersAs cmp items w) (next : α → Run Value) :
    ∃ answers w', interp.Compares w answers w' ∧ Interp.Among items answers ∧
      (t.run interp.order >>= next) w = next (t.settle cmp) w' := by
  induction h generalizing w with
  | done ha => exact ⟨[], w, .nil, .nil, rfl⟩
  | @ask k x y rest hx hy _ ih =>
    obtain ⟨c, w', hsend, hc⟩ := hanswers [] w .nil .nil x hx y hy
    obtain ⟨answers, w'', hcompares, hamong, hrun⟩ :=
      ih (cmp x y) (hanswers.after hx hy hsend)
    refine ⟨_ :: answers, w'', hcompares.cons hsend, hamong.cons hx hy, ?_⟩
    rw [run_ask_of_ok (Interp.order_of_int hsend), hc]
    exact hrun

end Inquiry

end Spinel
