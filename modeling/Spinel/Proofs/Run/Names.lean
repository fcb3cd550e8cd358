import Spinel.Proofs.Run.Reachable

/-!
# Names of classes and modules

A class or module is made where its name is not taken, and the name is taken from then on, whatever
constants are assigned. So there is one class or module of a name in each place (`Heap.Reopens`).
The names that programs are read with have no colons in them, and a full name can be cut at its last
two colons. So no two classes or modules have the same full name (`Heap.Regular.eq_of_fullName`).
-/

namespace Spinel

open Run

/-! ## Full names -/

/-- A list can be cut at the last place where a character stands. -/
theorem append_cons_inj_of_last {c : Char} {xs ys cs cs' : List Char} (h : c ∉ cs) (h' : c ∉ cs')
    (heq : xs ++ c :: cs = ys ++ c :: cs') : xs = ys ∧ cs = cs' := by
  -- What one of the two has between the places would be a part of the other's end.
  rcases List.append_eq_append_iff.1 heq with ⟨between, rfl, hrest⟩ | ⟨between, rfl, hrest⟩
  · cases between with
    | nil => exact ⟨(List.append_nil xs).symm, (List.cons.inj hrest).2⟩
    | cons d between =>
      rw [(List.cons.inj hrest).2] at h
      simp at h
  · cases between with
    | nil => exact ⟨List.append_nil ys, (List.cons.inj hrest).2.symm⟩
    | cons d between =>
      rw [(List.cons.inj hrest).2] at h'
      simp at h'

theorem append_colons_inj {x y name name' : String} (h : IsPlainName name)
    (h' : IsPlainName name') (heq : x ++ "::" ++ name = y ++ "::" ++ name') :
    x = y ∧ name = name' := by
  have hchars : (x.toList ++ [':']) ++ ':' :: name.toList =
      (y.toList ++ [':']) ++ ':' :: name'.toList := by
    simpa using congrArg String.toList heq
  obtain ⟨hpath, hname⟩ := append_cons_inj_of_last h h' hchars
  exact ⟨String.toList_inj.1 (List.append_cancel_right hpath), String.toList_inj.1 hname⟩

theorem not_isPlainName_append (x name : String) : ¬IsPlainName (x ++ "::" ++ name) := by
  simp [IsPlainName]

namespace Heap

variable {S : Secrecy} {h h' : Heap} {c c' : ClassRef}

/-- A class or module of the heap, and not one that holds the methods of one object or class
alone. -/
def Ordinary (h : Heap) (c : ClassRef) : Prop :=
  c.index < h.classes.size ∧ (h.klass c).isSingleton = false

theorem Regular.ordinary_parent (hr : @Regular S h) (hc : h.Ordinary c)
    (hp : (h.klass c).parent = some c') : h.Ordinary c' ∧ c'.index < c.index :=
  ⟨((hr.classes c hc.1).inside c' hp).2.1, ((hr.classes c hc.1).inside c' hp).1⟩

/-- Classes and modules are told apart by their full names. -/
theorem Regular.eq_of_fullName (hr : @Regular S h) (ht : S.fromText) (hc : h.Ordinary c)
    (hc' : h.Ordinary c') (hname : h.fullName c = h.fullName c') : c = c' := by
  have hplain : ∀ k, h.Ordinary k → IsPlainName (h.klass k).name := fun k hk =>
    (hr.classes k hk.1).named ht hk.2
  -- The names before the last one belong to the classes around the two, which are older.
  obtain ⟨i⟩ := c
  induction i using Nat.strongRecOn generalizing c' with
  | ind i ih =>
    rw [hr.founded.fullName_eq ⟨i⟩, hr.founded.fullName_eq c'] at hname
    cases hp : (h.klass ⟨i⟩).parent with
    | none =>
      cases hp' : (h.klass c').parent with
      | none =>
        rw [hp, hp'] at hname
        exact hr.housed.alone _ c' hc.1 hc'.1 hc.2 hc'.2 hname (by rw [home, home, hp, hp'])
      | some p' =>
        rw [hp, hp', Option.elim_none, Option.elim_some] at hname
        exact absurd (hname ▸ hplain _ hc) (not_isPlainName_append _ _)
    | some p =>
      obtain ⟨hord, hlt⟩ := hr.ordinary_parent hc hp
      cases hp' : (h.klass c').parent with
      | none =>
        rw [hp, hp', Option.elim_some, Option.elim_none] at hname
        exact absurd (hname ▸ hplain _ hc') (not_isPlainName_append _ _)
      | some p' =>
        rw [hp, hp'] at hname
        obtain ⟨hpath, hlast⟩ := append_colons_inj (hplain _ hc) (hplain _ hc') hname
        obtain rfl := ih p.index hlt (hr.ordinary_parent hc' hp').1 hord hpath
        exact hr.housed.alone _ c' hc.1 hc'.1 hc.2 hc'.2 hlast (by rw [home, home, hp, hp'])

/-! ## Places -/

/-- A class or module of `h'` with the name of one of `h`, in the same place, is that one: for it no
second one was made. -/
def Reopens (h h' : Heap) : Prop :=
  ∀ c c', h.Ordinary c → h'.Ordinary c' → (h.klass c).name = (h'.klass c').name →
    h.home c = h'.home c' → c = c'

theorem Regular.reopens (hr : @Regular S h') (g : h.Enlarges h') : h.Reopens h' := by
  intro c c' hc hc' hname hhome
  have hlives : c.index < h'.classes.size := Nat.lt_of_lt_of_le hc.1 g.classes
  have hord : (h'.klass c).isSingleton = false := (g.grows c hc.1).isSingleton.trans hc.2
  exact hr.housed.alone c c' hlives hc'.1 hord hc'.2 ((g.grows c hc.1).name.trans hname)
    ((g.home hc.1).trans hhome)

/-- Classes and modules are told apart by their names and places, and by their full names. -/
def NamedApart (h : Heap) : Prop :=
  h.Reopens h ∧ ∀ c c', h.Ordinary c → h.Ordinary c' → h.fullName c = h.fullName c' → c = c'

theorem Regular.namedApart (hr : @Regular S h) (ht : S.fromText) : h.NamedApart :=
  ⟨hr.reopens (.refl h), fun _ _ hc hc' => hr.eq_of_fullName ht hc hc'⟩

end Heap

/-! ## Programs -/

/-- Whatever depth is left to the evaluator, and whether or not the task succeeds, it makes no
second class or module of a name in a place. -/
def Task.Reopens (w : World) (task : Task) : Prop :=
  ∀ n, w.heap.Reopens ((interpreter n task).after w).heap

theorem Task.Ready.reopens {fromText : Prop} {w : World} {task : Task}
    (hr : @Heap.Regular (.free fromText) w.heap) (ht : @Task.Ready (.free fromText) w.heap task) :
    task.Reopens w := by
  intro n
  obtain ⟨e, hr'⟩ := ht.keeps n hr
  exact hr'.reopens e.enlarges

namespace Session

/-- There is never a second class or module of a name in a place, nor two of the same full name.
This holds after any sequence of programs that are read from texts, and no further program makes a
second class or module of a name that was there. Inside its run it holds at every task, and for all
that the task does: a check of it never raises an alarm. -/
theorem classes_named_apart (sourceName : String) (host : Host) (ps : List Program)
    (hps : ∀ p ∈ ps, p.IsRead) :
    let w := afterAll (start sourceName host) ps
    w.heap.NamedApart ∧ ∀ p : Program, p.IsRead →
      w.heap.Reopens ((p.run evaluator).after w).heap ∧
      ∀ alarm : Run Value,
        p.run (watched (fun w task => w.heap.NamedApart ∧ task.Reopens w) alarm depth) w =
          p.run evaluator w := by
  intro w
  have hcore := @Core.regular_of_unreserved (.free True) fun _ hc => hc
  have hr : @Heap.Regular (.free True) w.heap := regular_afterAll_of_read (fun _ => hps) hcore
  refine ⟨hr.namedApart trivial, fun p hp => ⟨?_, fun alarm => ?_⟩⟩
  · obtain ⟨e, hr'⟩ := keeps_run (fun _ => hp) hr
    exact hr'.reopens e.enlarges
  · exact watched_run_of_read (fun _ => hp) hr
      (fun w task hr ht => ⟨hr.namedApart trivial, ht.reopens hr⟩) alarm

/-- A class that is opened three times, once under another name, and a class of the same name in a
module. A number is then put in place of the first one. -/
def reopening : List Program :=
  [.text "class A\nend\nB = A\nclass B\nend\nclass A\nend\nmodule M\nclass A\nend\nend" "main",
    .text "A = 1\nclass A\nend" "main"]

theorem isRead_reopening : ∀ p ∈ reopening, p.IsRead :=
  List.forall_mem_cons.2 ⟨trivial, List.forall_mem_singleton.2 trivial⟩

/-- Three classes and modules were made. -/
theorem classes_named_apart_reopening :
    let w := afterAll (start) reopening
    (∀ p ∈ reopening, p.IsRead) ∧
      w.heap.classes.size = Core.heap.classes.size + 3 ∧
      w.heap.fullName ⟨Core.heap.classes.size + 2⟩ = "M::A" ∧
      w.heap.NamedApart ∧ ∀ p : Program, p.IsRead →
        w.heap.Reopens ((p.run evaluator).after w).heap ∧
        ∀ alarm : Run Value,
          p.run (watched (fun w task => w.heap.NamedApart ∧ task.Reopens w) alarm depth) w =
            p.run evaluator w :=
  ⟨isRead_reopening, by decide +kernel, by decide +kernel,
    classes_named_apart "main" {} reopening isRead_reopening⟩

end Session

end Spinel
