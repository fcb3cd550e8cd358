import Mathlib.Data.List.Perm.Subperm
import Spinel.Proofs.Heap.Chains

/-!
# Assignment to variables

Scopes stand inside one another, and any number of blocks share the scopes around them. A name
means the variable of the nearest scope outwards that has it (`Heap.Owner`). Assignment writes one
variable of one scope: in a method the scope's own, in a block that of the owner, if there is one.
What a name means in any scope of the heap changes only where the variable that was written is the
one that the name means now (`Heap.assignLocal_changes_one_variable`).
-/

namespace Spinel.Heap

variable {h : Heap} {name : String} {s o c d t : ScopeRef} {v : Value}

/-! ## Owners -/

/-- The nearest scope that has a variable of a name, from a scope outwards. -/
inductive Owner (h : Heap) (name : String) : ScopeRef → ScopeRef → Prop
  | here {s : ScopeRef} (hs : h.hasLocal s name = true) : Owner h name s s
  | outer {s p o : ScopeRef} (hs : h.hasLocal s name = false) (hp : (h.scope s).parent = some p)
      (ho : Owner h name p o) : Owner h name s o

theorem hasLocal_iff : h.hasLocal s name = true ↔ ∃ v, (h.scope s).locals.get? name = some v :=
  Option.isSome_iff_exists

theorem Owner.hasLocal (ho : h.Owner name s o) : h.hasLocal o name = true := by
  induction ho with
  | here hs => exact hs
  | outer _ _ _ ih => exact ih

theorem index_lt_of_hasLocal (hs : h.hasLocal s name = true) : s.index < h.scopes.size := by
  refine Nat.lt_of_not_le fun hge => ?_
  have hdefault : h.scope s = default := Store.get_of_size_le hge
  rw [Heap.hasLocal, hdefault] at hs
  cases hs

/-- The nearest owner among a scope and the `n` scopes around it. -/
def ownerWithin (h : Heap) (name : String) (n : Nat) (s : ScopeRef) : Option ScopeRef :=
  (h.scopesWithin n s).find? (h.hasLocal · name)

theorem ownerWithin_of_hasLocal (hs : h.hasLocal s name = true) (n : Nat) :
    h.ownerWithin name n s = some s := by
  unfold ownerWithin
  cases n with
  | zero => exact List.find?_cons_of_pos hs
  | succ n =>
    rw [scopesWithin]
    cases (h.scope s).parent <;> exact List.find?_cons_of_pos hs

theorem ownerWithin_zero (hs : h.hasLocal s name = false) : h.ownerWithin name 0 s = none :=
  List.find?_cons_of_neg (by simp [hs])

theorem ownerWithin_succ (hs : h.hasLocal s name = false) (n : Nat) :
    h.ownerWithin name (n + 1) s = (h.scope s).parent.bind (h.ownerWithin name n) := by
  unfold ownerWithin
  rw [scopesWithin]
  cases (h.scope s).parent with
  | none => exact List.find?_cons_of_neg (by simp [hs])
  | some p => exact List.find?_cons_of_neg (by simp [hs])

theorem owner_of_ownerWithin {n : Nat} (ho : h.ownerWithin name n s = some o) :
    h.Owner name s o := by
  have hhere : ∀ {n s}, h.hasLocal s name = true → h.ownerWithin name n s = some o →
      h.Owner name s o := by
    intro n s hs ho
    rw [ownerWithin_of_hasLocal hs] at ho
    cases ho
    exact .here hs
  induction n generalizing s with
  | zero =>
    cases hs : h.hasLocal s name with
    | true => exact hhere hs ho
    | false =>
      rw [ownerWithin_zero hs] at ho
      cases ho
  | succ n ih =>
    cases hs : h.hasLocal s name with
    | true => exact hhere hs ho
    | false =>
      rw [ownerWithin_succ hs, Option.bind_eq_some_iff] at ho
      obtain ⟨p, hp, ho⟩ := ho
      exact .outer hs hp (ih ho)

/-- The scopes on the way to an owner. No scope is met twice, since it would then take as many steps
to the owner from there as it takes fewer. -/
theorem Owner.exists_path (ho : h.Owner name s o) :
    ∃ path : List ScopeRef, s ∈ path ∧ path.Nodup ∧ (∀ k ∈ path, k.index < h.scopes.size) ∧
      (∀ k ∈ path, ∀ n, path.length ≤ n + 1 → h.ownerWithin name n k = some o) ∧
      ∀ n, h.ownerWithin name n s = some o → path.length ≤ n + 1 := by
  induction ho with
  | @here s hs =>
    refine ⟨[s], List.mem_cons_self, List.pairwise_singleton _ s, ?_, ?_,
      fun n _ => Nat.le_add_left 1 n⟩
    · exact List.forall_mem_singleton.2 (index_lt_of_hasLocal hs)
    · exact List.forall_mem_singleton.2 fun n _ => ownerWithin_of_hasLocal hs n
  | @outer s p o hs hp _ ih =>
    obtain ⟨path, hmem, hnodup, hlive, hfound, hleast⟩ := ih
    have hmore : ∀ n, h.ownerWithin name n s = some o → (s :: path).length ≤ n + 1 := by
      intro n hn
      cases n with
      | zero =>
        rw [ownerWithin_zero hs] at hn
        cases hn
      | succ n =>
        rw [ownerWithin_succ hs, hp] at hn
        exact Nat.succ_le_succ (hleast n hn)
    have hnew : s ∉ path := by
      intro hagain
      have hlong := hmore (path.length - 1) (hfound s hagain _ (by omega))
      rw [List.length_cons] at hlong
      have hpos := List.length_pos_of_mem hmem
      omega
    refine ⟨s :: path, List.mem_cons_self, List.nodup_cons.2 ⟨hnew, hnodup⟩,
      List.forall_mem_cons.2 ⟨index_lt_of_scope hp, hlive⟩,
      List.forall_mem_cons.2 ⟨fun n hn => ?_, fun k hk n hn => ?_⟩, hmore⟩
    · rw [List.length_cons] at hn
      have hpos := List.length_pos_of_mem hmem
      obtain ⟨n, rfl⟩ : ∃ m, n = m + 1 := ⟨n - 1, by omega⟩
      rw [ownerWithin_succ hs, hp]
      exact hfound p hmem n (Nat.le_of_succ_le_succ hn)
    · exact hfound k hk n (Nat.le_of_succ_le hn)

/-- The bound on the length of chains does not keep an owner from being found. -/
theorem owner_iff : h.Owner name s o ↔ h.holder? s name = some o := by
  constructor
  · intro ho
    obtain ⟨path, hmem, hnodup, hlive, hfound, -⟩ := ho.exists_path
    have hsub : path ⊆ (List.range h.scopes.size).map ScopeRef.mk := fun k hk =>
      List.mem_map.2 ⟨k.index, List.mem_range.2 (hlive k hk), rfl⟩
    have hlength : path.length ≤ h.scopes.size := by
      have hle := (List.subperm_of_subset hnodup hsub).length_le
      rwa [List.length_map, List.length_range] at hle
    exact hfound s hmem _ (Nat.le_succ_of_le hlength)
  · exact owner_of_ownerWithin

theorem holder?_of_not_owner (hnone : ∀ o, ¬h.Owner name s o) : h.holder? s name = none :=
  Option.eq_none_iff_forall_ne_some.2 fun o ho => hnone o (owner_iff.2 ho)

theorem findLocal_eq_bind (s : ScopeRef) (name : String) :
    h.findLocal s name = (h.holder? s name).bind fun o => (h.scope o).locals.get? name := by
  unfold findLocal holder?
  induction h.scopeChain s with
  | nil => rfl
  | cons k rest ih =>
    rw [List.findSome?_cons]
    cases hk : (h.scope k).locals.get? name with
    | none =>
      rw [List.find?_cons_of_neg (by simp [Heap.hasLocal, OrderedMap.contains, hk])]
      exact ih
    | some v =>
      have hfound : h.hasLocal k name = true := hasLocal_iff.2 ⟨v, hk⟩
      rw [List.find?_cons, hfound]
      exact hk.symm

theorem Owner.findLocal (ho : h.Owner name s o) :
    h.findLocal s name = (h.scope o).locals.get? name := by
  rw [findLocal_eq_bind, owner_iff.1 ho]
  rfl

theorem findLocal_of_not_owner (hnone : ∀ o, ¬h.Owner name s o) : h.findLocal s name = none := by
  rw [findLocal_eq_bind, holder?_of_not_owner hnone]
  rfl

/-! ## Writing one variable -/

section Define

variable {m : String}

theorem scope_defineLocal_self (ht : t.index < h.scopes.size) :
    (h.defineLocal t name v).scope t =
      { h.scope t with locals := (h.scope t).locals.insert name v } :=
  Store.get_modify_self ht _

theorem scope_defineLocal_of_ne (hd : d ≠ t) :
    (h.defineLocal t name v).scope d = h.scope d :=
  Store.get_modify_of_ne (fun heq => hd (congrArg ScopeRef.mk heq)) _

theorem scope_defineLocal_cases (h : Heap) (t : ScopeRef) (name : String) (v : Value)
    (d : ScopeRef) :
    (h.defineLocal t name v).scope d = h.scope d ∨ d = t ∧ (h.defineLocal t name v).scope d =
      { h.scope d with locals := (h.scope d).locals.insert name v } := by
  rcases Store.get_modify_cases h.scopes t.index _ d.index with hsame | ⟨hd, hnew⟩
  · exact .inl hsame
  · exact .inr ⟨congrArg ScopeRef.mk hd, hnew⟩

theorem parent_defineLocal (d : ScopeRef) :
    ((h.defineLocal t name v).scope d).parent = (h.scope d).parent := by
  rcases h.scope_defineLocal_cases t name v d with hsame | ⟨-, hnew⟩
  · rw [hsame]
  · rw [hnew]

/-- The other variables of the scope stay as they are, and so do all of other scopes. -/
theorem get?_defineLocal_of_ne (hne : (d, m) ≠ (t, name)) :
    ((h.defineLocal t name v).scope d).locals.get? m = (h.scope d).locals.get? m := by
  rcases h.scope_defineLocal_cases t name v d with hsame | ⟨rfl, hnew⟩
  · rw [hsame]
  · rw [hnew]
    exact OrderedMap.get?_insert_of_ne _ (fun heq => hne (congrArg (d, ·) heq)) v

theorem get?_defineLocal_self (ht : t.index < h.scopes.size) :
    ((h.defineLocal t name v).scope t).locals.get? name = some v := by
  rw [scope_defineLocal_self ht]
  exact OrderedMap.get?_insert_self _ _ _

theorem hasLocal_defineLocal_of_ne (hd : d ≠ t) :
    (h.defineLocal t name v).hasLocal d m = h.hasLocal d m := by
  unfold Heap.hasLocal
  rw [scope_defineLocal_of_ne hd]

theorem hasLocal_defineLocal_self (ht : t.index < h.scopes.size) :
    (h.defineLocal t name v).hasLocal t name = true :=
  hasLocal_iff.2 ⟨v, get?_defineLocal_self ht⟩

theorem scopeChain_defineLocal (d : ScopeRef) :
    (h.defineLocal t name v).scopeChain d = h.scopeChain d := by
  have hlink : (fun k => ((h.defineLocal t name v).scope k).parent) =
      fun k => (h.scope k).parent := funext parent_defineLocal
  have hsize : (h.defineLocal t name v).scopes.size = h.scopes.size := Store.size_modify _ _ _
  unfold scopeChain
  rw [scopesWithin_eq_walk, scopesWithin_eq_walk, hlink, hsize]

theorem findLocal_defineLocal_of_ne (d : ScopeRef) (hm : m ≠ name) :
    (h.defineLocal t name v).findLocal d m = h.findLocal d m := by
  unfold Heap.findLocal
  rw [scopeChain_defineLocal]
  congr 1
  funext k
  exact get?_defineLocal_of_ne fun heq => hm (congrArg Prod.snd heq)

/-- Where another scope is the owner now, it was before. -/
theorem Owner.of_defineLocal (ht : t.index < h.scopes.size)
    (ho : (h.defineLocal t name v).Owner name d o) (hne : o ≠ t) : h.Owner name d o := by
  induction ho with
  | here hs => exact .here (hasLocal_defineLocal_of_ne hne ▸ hs)
  | @outer s p o hs hp _ ih =>
    have hst : s ≠ t := by
      rintro rfl
      rw [hasLocal_defineLocal_self ht] at hs
      cases hs
    rw [hasLocal_defineLocal_of_ne hst] at hs
    rw [parent_defineLocal] at hp
    exact .outer hs hp (ih hne)

/-- Where there was an owner, it still is one, unless the scope that was written to is nearer. -/
theorem Owner.defineLocal (ht : t.index < h.scopes.size) (ho : h.Owner name d o) :
    (h.defineLocal t name v).Owner name d t ∨ (h.defineLocal t name v).Owner name d o := by
  induction ho with
  | @here s hs =>
    by_cases hst : s = t
    · subst hst
      exact .inl (.here (hasLocal_defineLocal_self ht))
    · exact .inr (.here ((hasLocal_defineLocal_of_ne hst).trans hs))
  | @outer s p o hs hp _ ih =>
    by_cases hst : s = t
    · subst hst
      exact .inl (.here (hasLocal_defineLocal_self ht))
    · have hs' : (h.defineLocal t name v).hasLocal s name = false :=
        (hasLocal_defineLocal_of_ne hst).trans hs
      have hp' : ((h.defineLocal t name v).scope s).parent = some p :=
        (parent_defineLocal s).trans hp
      exact ih.imp (.outer hs' hp') (.outer hs' hp')

/-- Where the scope that was written to is not the owner, the name means what it meant. -/
theorem findLocal_defineLocal_of_not_owner (ht : t.index < h.scopes.size)
    (hd : ¬(h.defineLocal t name v).Owner name d t) :
    (h.defineLocal t name v).findLocal d name = h.findLocal d name := by
  by_cases howned : ∃ o, h.Owner name d o
  · obtain ⟨o, ho⟩ := howned
    have ho' := (ho.defineLocal ht).resolve_left hd
    have hne : o ≠ t := fun heq => hd (heq ▸ ho')
    rw [ho'.findLocal, ho.findLocal, scope_defineLocal_of_ne hne]
  · have hnone : ∀ o, ¬h.Owner name d o := not_exists.1 howned
    rw [findLocal_of_not_owner hnone, findLocal_of_not_owner]
    intro o ho
    exact hnone o (ho.of_defineLocal ht fun heq => hd (heq ▸ ho))

end Define

/-! ## Assignment -/

theorem assignee_of_plain (hkind : (h.scope c).kind = .plain) : h.assignee c name = c := by
  unfold assignee
  rw [hkind]

theorem assignee_of_owner (hkind : (h.scope c).kind = .block) (ho : h.Owner name c o) :
    h.assignee c name = o := by
  have hholder := owner_iff.1 ho
  unfold holder? at hholder
  unfold assignee
  rw [hkind, hholder]
  rfl

theorem assignee_of_not_owner (hnone : ∀ o, ¬h.Owner name c o) : h.assignee c name = c := by
  have hholder := holder?_of_not_owner hnone
  unfold holder? at hholder
  unfold assignee
  rw [hholder]
  cases (h.scope c).kind <;> rfl

/-- Assignment writes to the scope itself or to the owner of the name. -/
theorem assignee_cases (h : Heap) (c : ScopeRef) (name : String) :
    h.assignee c name = c ∨ h.Owner name c (h.assignee c name) := by
  cases hkind : (h.scope c).kind with
  | plain => exact .inl (assignee_of_plain hkind)
  | block =>
    by_cases howned : ∃ o, h.Owner name c o
    · obtain ⟨o, ho⟩ := howned
      exact .inr ((assignee_of_owner hkind ho).symm ▸ ho)
    · exact .inl (assignee_of_not_owner (not_exists.1 howned))

theorem index_assignee_lt (hc : c.index < h.scopes.size) :
    (h.assignee c name).index < h.scopes.size := by
  rcases h.assignee_cases c name with hself | ho
  · exact hself.symm ▸ hc
  · exact index_lt_of_hasLocal ho.hasLocal

/-- The scope that was written to is the owner where the assignment was made. -/
theorem owner_assignLocal (hc : c.index < h.scopes.size) :
    (h.assignLocal c name v).Owner name c (h.assignee c name) := by
  have ht : (h.assignee c name).index < h.scopes.size := index_assignee_lt hc
  rcases h.assignee_cases c name with hself | ho
  · have hhere : (h.assignLocal c name v).hasLocal (h.assignee c name) name = true :=
      hasLocal_defineLocal_self ht
    rw [hself] at hhere ⊢
    exact .here hhere
  · exact (ho.defineLocal ht).elim id id

/-- A heap comes from another one by writing one variable of one scope. -/
structure WritesLocal (h h' : Heap) (t : ScopeRef) (name : String) (v : Value) : Prop where
  written : (h'.scope t).locals.get? name = some v
  kept : ∀ m, m ≠ name → (h'.scope t).locals.get? m = (h.scope t).locals.get? m
  scope : h'.scope t = { h.scope t with locals := (h'.scope t).locals }
  others : ∀ d, d ≠ t → h'.scope d = h.scope d
  size : h'.scopes.size = h.scopes.size
  rest : { h' with scopes := h.scopes } = h

theorem writesLocal_defineLocal (ht : t.index < h.scopes.size) :
    h.WritesLocal (h.defineLocal t name v) t name v where
  written := get?_defineLocal_self ht
  kept m hm := get?_defineLocal_of_ne fun heq => hm (congrArg Prod.snd heq)
  scope := by rw [scope_defineLocal_self ht]
  others d hd := scope_defineLocal_of_ne hd
  size := Store.size_modify _ _ _
  rest := rfl

/-- Assignment to a name writes one variable: of the scope itself if it is no block or has the name,
or if no scope around it has it, and otherwise of the nearest one that has it. In the scope, the
name then means the value. No other name means anything else in any scope, and this one only in
those scopes whose owner of the name is now the scope that was written to. -/
theorem assignLocal_changes_one_variable (h : Heap) (c : ScopeRef) (hc : c.index < h.scopes.size)
    (name : String) (v : Value) :
    let h' := h.assignLocal c name v
    ∃ t, ((h.scope c).kind = .plain ∨ h.hasLocal c name = true ∨ (∀ o, ¬h.Owner name c o) →
        t = c) ∧
      ((h.scope c).kind = .block → ∀ o, h.Owner name c o → t = o) ∧
      h.WritesLocal h' t name v ∧ h'.findLocal c name = some v ∧
      (∀ d m, m ≠ name → h'.findLocal d m = h.findLocal d m) ∧
      ∀ d, h'.findLocal d name ≠ h.findLocal d name →
        h'.Owner name d t ∧ h'.findLocal d name = some v := by
  intro h'
  have ht : (h.assignee c name).index < h.scopes.size := index_assignee_lt hc
  have hmeans : ∀ d, h'.Owner name d (h.assignee c name) → h'.findLocal d name = some v :=
    fun d ho => ho.findLocal.trans (get?_defineLocal_self ht)
  refine ⟨h.assignee c name, ?_, fun hkind o ho => assignee_of_owner hkind ho,
    writesLocal_defineLocal ht, hmeans c (owner_assignLocal hc), fun d m hm =>
      findLocal_defineLocal_of_ne d hm, fun d hchanged => ?_⟩
  · rintro (hkind | hown | hnone)
    · exact assignee_of_plain hkind
    · cases hkind : (h.scope c).kind with
      | plain => exact assignee_of_plain hkind
      | block => exact assignee_of_owner hkind (.here hown)
    · exact assignee_of_not_owner hnone
  · have ho : h'.Owner name d (h.assignee c name) :=
      not_not.1 fun hnot => hchanged (findLocal_defineLocal_of_not_owner ht hnot)
    exact ⟨ho, hmeans d ho⟩

/-- A block inside a block assigns to a variable of the scope around both. -/
theorem assignLocal_changes_one_variable_nested :
    let h : Heap := { scopes := ⟨#[{ receiver := .nil, locals := .ofList [("x", .int 1)] },
      { receiver := .nil, parent := some ⟨0⟩, kind := .block, locals := .ofList [("y", .int 2)] },
      { receiver := .nil, parent := some ⟨1⟩, kind := .block }]⟩ }
    let h' := h.assignLocal ⟨2⟩ "x" (.int 5)
    h.WritesLocal h' ⟨0⟩ "x" (.int 5) ∧ h'.findLocal ⟨2⟩ "x" = some (.int 5) ∧
      h'.findLocal ⟨2⟩ "y" = h.findLocal ⟨2⟩ "y" := by
  intro h h'
  obtain ⟨t, -, howner, hwrites, hmeans, hother, -⟩ :=
    assignLocal_changes_one_variable h ⟨2⟩ (by decide) "x" (.int 5)
  obtain rfl : t = ⟨0⟩ := howner rfl ⟨0⟩ (.outer rfl rfl (.outer rfl rfl (.here rfl)))
  exact ⟨hwrites, hmeans, hother ⟨2⟩ "y" (by decide)⟩

end Spinel.Heap
