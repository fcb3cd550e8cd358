import Spinel.Proofs.Heap.Regular

/-!
# Entries of tables

A table files a text under a copy of it that nothing else refers to. While a table is being made,
the copies are reserved (`Heap.Regular.reserve`), so that what is evaluated in between cannot get
hold of them, and when the table is written they become its keys (`Heap.Regular.seal`).
-/

namespace Spinel

/-- The same, with one more text reserved. -/
@[reducible] def Secrecy.reserve (S : Secrecy) (c : TextRef) : Secrecy :=
  ⟨S.toPolicy, fun d => S.reserved d ∨ d = c⟩

namespace Heap

variable {S S' S'' : Secrecy} {h h' h'' : Heap} {t : Table} {r : TableRef}

/-! ## Writing a table -/

/-- An entry of a table that is about to be written at `r`: a good entry, whose key the table kept
before if it is kept at all, or one whose key is a text that was reserved for this. -/
inductive Enters (S S' : Secrecy) (h : Heap) (r : TableRef) (filed : HashKey) (x : Entry) : Prop
  | old (hx : @FiledAt S' h r filed x)
      (hkept : S'.discreet r → ∀ c, x.key = .str c → h.IsKeyOf S'.discreet c)
  | new {c : TextRef} (hv : @Lives _ _ S' h x.value) (hkey : x.key = .str c)
      (hres : S'.reserved c) (hfree : ¬S.reserved c) (hfiled : filed = .str (h.text c))

theorem Enters.of_mem (hr : @Regular S' h) {x : HashKey × Entry} (hx : x ∈ (h.table r).entries) :
    Enters S S' h r x.1 x.2 :=
  .old (@Regular.tables S' h hr r x hx) fun hd _ hc => ⟨r, hd, x, hx, hc⟩

/-- When a table is written, the texts that were reserved for it are no longer needed as such. -/
theorem Regular.seal {T : Store Table} (hr : @Regular S' h) (hd : S.toPolicy = S'.toPolicy)
    (hres : ∀ c, S.reserved c → S'.reserved c) (hsize : h.tables.size ≤ T.size)
    (hsame : ∀ s : TableRef, s ≠ r → T.get s.index = h.table s)
    (hentries : ∀ x ∈ (T.get r.index).entries, Enters S S' h r x.1 x.2) :
    ExtendsFrom S' h S { h with tables := T } ∧ @Regular S { h with tables := T } := by
  have hreserved := hr.reserved
  have htables := hr.tables
  -- a key that is kept from programs afterwards was a key before or was reserved
  have hkeys : ∀ c, IsKeyOf { h with tables := T } S.discreet c → S'.Hides h c := by
    rintro c ⟨s, hdis, x, hx, hkey⟩
    by_cases hs : s = r
    · subst hs
      cases hentries x hx with
      | old _ hkept => exact .inr (hkept (hd ▸ hdis) c hkey)
      | new _ hkey' hres' _ _ =>
        cases hkey'.symm.trans hkey
        exact .inl hres'
    · exact .inr ⟨s, hd ▸ hdis, x, hsame s hs ▸ hx, hkey⟩
  have e : ExtendsFrom S' h S { h with tables := T } := by
    refine ⟨{ Enlarges.refl h with tables := hsize }, hd, fun c _ => hres c, fun c _ hhid => ?_⟩
    exact ⟨hhid.elim (fun hc => .inl (hres c hc)) (hkeys c), rfl⟩
  refine ⟨e, hr.extendFrom e (fun c hc => hreserved c (hres c hc)) (fun _ => .inl rfl)
    (fun s => ?_) (fun _ hl => .inl ⟨hl, rfl⟩) (fun _ hl => .inl ⟨hl, rfl⟩)
    (fun _ hl => .inl ⟨hl, rfl⟩) (hr.housed_of_enlarges e.enlarges fun _ hl _ => hl)⟩
  by_cases hs : s = r
  · subst hs
    refine .inr fun x hx => ?_
    cases hentries x hx with
    | old hgood hkept => exact hgood.later e fun hdis c hc => ⟨s, hdis, x, hx, hc⟩
    | new hv hkey hres' hfree hfiled =>
      next c =>
      have hshows : @Shows S { h with tables := T } x.2.key :=
        hkey ▸ ⟨hreserved c hres', hfree⟩
      refine @FiledAt.mk S _ _ _ _ (hv.later e) hshows (fun hopen => ?_) (fun _ d hkey' => ?_)
      · rw [hkey]
        refine ⟨hreserved c hres', ?_⟩
        rintro (hc | ⟨s', hdis, y, hy, hykey⟩)
        · exact hfree hc
        · have hne : s' ≠ s := fun heq => hopen (heq ▸ hdis)
          have hshown : @Shows S' h y.2.key := (htables s' y (hsame s' hne ▸ hy)).key
          rw [hykey] at hshown
          exact hshown.2 hres'
      · cases hkey.symm.trans hkey'
        exact hfiled
  · exact .inl (hsame s hs)

theorem Regular.release (hr : @Regular S' h) (hd : S.toPolicy = S'.toPolicy)
    (hres : ∀ c, S.reserved c → S'.reserved c) : ExtendsFrom S' h S h ∧ @Regular S h := by
  exact hr.seal (T := h.tables) (r := ⟨0⟩) hd hres (Nat.le_refl _) (fun _ _ => rfl)
    fun x hx => .of_mem hr hx

theorem Regular.reserve (hr : @Regular S h) (s : String) :
    ExtendsFrom S h (S.reserve ⟨h.texts.size⟩) (h.newText s).2 ∧
      @Regular (S.reserve ⟨h.texts.size⟩) (h.newText s).2 := by
  have hreserved := hr.reserved
  have hnew : ∀ c : TextRef, c.index < h.texts.size →
      (S.reserve ⟨h.texts.size⟩).reserved c → S.reserved c := by
    rintro c hc (hres | rfl)
    · exact hres
    · exact absurd hc (Nat.lt_irrefl _)
  have e : ExtendsFrom S h (S.reserve ⟨h.texts.size⟩) (h.newText s).2 := by
    refine ⟨{ Enlarges.refl h with texts := by simp [newText] }, rfl, hnew, fun c hc hhid => ?_⟩
    exact ⟨hhid.imp_left (hnew c hc), Store.get_push_of_lt hc s⟩
  refine ⟨e, hr.extendFrom e ?_ (fun _ => .inl rfl) (fun _ => .inl rfl)
    (fun _ hl => .inl ⟨hl, rfl⟩) (fun _ hl => .inl ⟨hl, rfl⟩) (fun _ hl => .inl ⟨hl, rfl⟩)
    (hr.housed_of_enlarges e.enlarges fun _ hl _ => hl)⟩
  rintro c (hres | rfl)
  · exact Nat.lt_of_lt_of_le (hreserved c hres) e.enlarges.texts
  · exact Store.size_lt_push h.texts s

/-! ## Changing a table -/

/-- A table is changed in place, perhaps by an entry for which a text was reserved. -/
theorem Regular.seal_modifyTable {f : Table → Table} (hr : @Regular S' h)
    (hd : S.toPolicy = S'.toPolicy) (hres : ∀ c, S.reserved c → S'.reserved c)
    (hf : ∀ x ∈ (f (h.table r)).entries, Enters S S' h r x.1 x.2) :
    ExtendsFrom S' h S (h.modifyTable r f) ∧ @Regular S (h.modifyTable r f) := by
  refine hr.seal (r := r) hd hres (Nat.le_of_eq (Store.size_modify _ _ _).symm)
    (fun s hs => ?_) fun x hx => ?_
  · refine Store.get_modify_of_ne (fun heq => hs ?_) f
    cases s; cases r; exact congrArg TableRef.mk heq
  · rcases Store.get_modify_cases h.tables r.index f r.index with hsame | ⟨-, hnew⟩
    · rw [hsame] at hx
      exact .of_mem hr hx
    · rw [hnew] at hx
      exact hf x hx

theorem keeps_modifyTable [S : Secrecy] {f : Table → Table}
    (hf : h.Regular → ∀ x ∈ (f (h.table r)).entries, Enters S S h r x.1 x.2) :
    h.Keeps (h.modifyTable r f) :=
  fun hr => hr.seal_modifyTable rfl (fun _ hc => hc) (hf hr)

theorem keeps_eraseEntry [Secrecy] (k : HashKey) : h.Keeps (h.modifyTable r (·.erase k)) :=
  keeps_modifyTable fun hr _ hx => .of_mem hr ((OrderedMap.drop_sublist k _).subset hx)

theorem keeps_clearTable [Secrecy] : h.Keeps (h.modifyTable r fun _ => .empty) :=
  keeps_modifyTable fun _ x hx => by cases hx

/-- An entry that is there gets another value. -/
theorem keeps_setValue [S : Secrecy] {filed : HashKey} {x : Entry} {value : Value}
    (hx : (h.table r).get? filed = some x) (hv : Lives h value) :
    h.Keeps (h.modifyTable r (·.insert filed { x with value })) := by
  refine keeps_modifyTable fun hr y hy => ?_
  rcases OrderedMap.mem_insert hy with hold | rfl
  · exact .of_mem hr hold
  · have hmem : (filed, x) ∈ (h.table r).entries := OrderedMap.get?_eq_some_iff.1 hx
    exact .old { hr.tables r _ hmem with value := hv } fun hd _ hc => ⟨r, hd, _, hmem, hc⟩

/-! ## Tables that are being made -/

/-- An entry of a table that is being made. If its key is a text, it was reserved for the table. -/
inductive Drafted (S S' : Secrecy) (h : Heap) (filed : HashKey) (x : Entry) : Prop
  | plain (hv : @Lives _ _ S' h x.value) (hkey : @Lives _ _ S' h x.key)
      (hne : ∀ c, x.key ≠ .str c)
  | text {c : TextRef} (hv : @Lives _ _ S' h x.value) (hkey : x.key = .str c)
      (hres : S'.reserved c) (hfree : ¬S.reserved c) (hfiled : filed = .str (h.text c))

/-- A draft can be written anywhere. -/
theorem Drafted.enters {filed : HashKey} {x : Entry} (hx : Drafted S S' h filed x) :
    Enters S S' h r filed x := by
  cases hx with
  | plain hv hkey hne =>
    have hgood : @FiledAt S' h r filed x :=
      @FiledAt.mk S' _ _ _ _ hv (@Shows.of_lives h S' _ hkey) (fun _ => hkey)
        (fun _ c hc => absurd hc (hne c))
    exact .old hgood fun _ c hc => absurd hc (hne c)
  | text hv hkey hres hfree hfiled => exact .new hv hkey hres hfree hfiled

/-- On the way from one heap to another more was reserved. -/
structure Reserves (S : Secrecy) (h : Heap) (S' : Secrecy) (h' : Heap) : Prop where
  extended : ExtendsFrom S h S' h'
  regular : @Regular S' h'
  more : ∀ c, S.reserved c → S'.reserved c

theorem Reserves.refl (hr : @Regular S h) : Reserves S h S h := ⟨.refl h, hr, fun _ hc => hc⟩

theorem Reserves.trans (g : Reserves S h S' h') (g' : Reserves S' h' S'' h'') :
    Reserves S h S'' h'' :=
  ⟨g.extended.trans g'.extended, g'.regular, fun c hc => g'.more c (g.more c hc)⟩

/-- What was reserved on the way is given back. -/
theorem Reserves.release (g : Reserves S h S' h') : ExtendsFrom S h S h' ∧ @Regular S h' := by
  obtain ⟨e, hr⟩ := g.regular.release g.extended.policy.symm g.more
  exact ⟨g.extended.trans e, hr⟩

/-- Drafts stay as they are while a program runs and while more is reserved. -/
theorem Drafted.later {S₀ : Secrecy} {filed : HashKey} {x : Entry} (hx : Drafted S₀ S h filed x)
    (hr : @Regular S h) (g : Reserves S h S' h') : Drafted S₀ S' h' filed x := by
  cases hx with
  | plain hv hkey hne => exact .plain (hv.later g.extended) (hkey.later g.extended) hne
  | text hv hkey hres hfree hfiled =>
    next c =>
    have hsame := (g.extended.hides c (@Regular.reserved S h hr c hres) (.inl (g.more c hres))).2
    exact .text (hv.later g.extended) hkey (g.more c hres) hfree (hsame ▸ hfiled)

/-- The key of an entry that is added to a draft. -/
theorem reserves_entryKey {key : Value} (hr : @Regular S h) (hk : @Shows S h key)
    {S₀ : Secrecy} (hmore : ∀ c, S₀.reserved c → S.reserved c) :
    ∃ S', Reserves S h S' (h.entryKey key).2 ∧ ∀ value, @Lives _ _ S' (h.entryKey key).2 value →
      Drafted S₀ S' (h.entryKey key).2 (h.key key) ⟨(h.entryKey key).1, value⟩ := by
  cases key with
  | str c =>
    obtain ⟨e, hr'⟩ := hr.reserve (h.text c)
    refine ⟨S.reserve ⟨h.texts.size⟩, ⟨e, hr', fun _ hc => .inl hc⟩, fun value hv => ?_⟩
    refine .text hv rfl (.inr rfl) (fun hres => ?_) ?_
    · exact Nat.lt_irrefl _ (@Regular.reserved S h hr _ (hmore _ hres))
    · rw [key_str]
      exact congrArg HashKey.str (Store.get_push_size h.texts (h.text c)).symm
  | nil | bool | int | float | symbol | array | hash | range | klass | object | proc =>
    exact ⟨S, .refl hr, fun value hv => .plain hv hk fun _ hc => by cases hc⟩

theorem reserves_insertEntry {key value : Value} (hr : @Regular S h)
    {S₀ : Secrecy} (hmore : ∀ c, S₀.reserved c → S.reserved c)
    (ht : ∀ x ∈ t.entries, Drafted S₀ S h x.1 x.2) (hk : @Shows S h key)
    (hv : @Lives _ _ S h value) :
    ∃ S', Reserves S h S' (h.insertEntry t key value).2 ∧
      ∀ x ∈ (h.insertEntry t key value).1.entries,
        Drafted S₀ S' (h.insertEntry t key value).2 x.1 x.2 := by
  obtain ⟨S', g, hnew⟩ := reserves_entryKey hr hk hmore
  refine ⟨S', g, fun x hx => ?_⟩
  rcases OrderedMap.mem_insert hx with hold | rfl
  · exact (ht x hold).later hr g
  · exact hnew value (hv.later g.extended)

theorem reserves_insertPairs {pairs : List (Value × Value)} (hr : @Regular S h)
    {S₀ : Secrecy} (hmore : ∀ c, S₀.reserved c → S.reserved c)
    (ht : ∀ x ∈ t.entries, Drafted S₀ S h x.1 x.2)
    (hp : ∀ p ∈ pairs, @Shows S h p.1 ∧ @Lives _ _ S h p.2) :
    ∃ S', Reserves S h S' (h.insertPairs t pairs).2 ∧
      ∀ x ∈ (h.insertPairs t pairs).1.entries,
        Drafted S₀ S' (h.insertPairs t pairs).2 x.1 x.2 := by
  induction pairs generalizing S h t with
  | nil => exact ⟨S, .refl hr, ht⟩
  | cons p rest ih =>
    obtain ⟨hpair, hrest⟩ := List.forall_mem_cons.1 hp
    obtain ⟨S', g, ht'⟩ := reserves_insertEntry hr hmore ht hpair.1 hpair.2
    obtain ⟨S'', g', ht''⟩ := ih g.regular (fun c hc => g.more c (hmore c hc)) ht'
      fun q hq => ⟨(hrest q hq).1.later g.extended, (hrest q hq).2.later g.extended⟩
    exact ⟨S'', g.trans g', ht''⟩

/-- A draft becomes a table. -/
theorem Reserves.newTable (g : Reserves S h S' h')
    (ht : ∀ x ∈ t.entries, Drafted S S' h' x.1 x.2) :
    ExtendsFrom S h S (h'.newTable t).2 ∧ @Regular S (h'.newTable t).2 := by
  have hsame : ∀ s : TableRef, s ≠ ⟨h'.tables.size⟩ →
      (h'.tables.push t).get s.index = h'.table s := by
    intro s hs
    rcases Store.get_push_cases h'.tables t s.index with hsame | ⟨hi, -⟩
    · exact hsame
    · exact absurd (by cases s; exact congrArg TableRef.mk hi) hs
  have hentries : ∀ x ∈ ((h'.tables.push t).get h'.tables.size).entries,
      Enters S S' h' ⟨h'.tables.size⟩ x.1 x.2 := by
    rw [Store.get_push_size]
    exact fun x hx => (ht x hx).enters
  obtain ⟨e, hr⟩ := g.regular.seal g.extended.policy.symm g.more
    (Nat.le_of_lt (Store.size_lt_push _ _)) hsame hentries
  exact ⟨g.extended.trans e, hr⟩

theorem keeps_addEntry [S : Secrecy] {key value : Value} (hk : Lives h key) (hv : Lives h value) :
    h.Keeps ((h.entryKey key).2.modifyTable r
      (·.insert (h.key key) ⟨(h.entryKey key).1, value⟩)) := by
  intro hr
  obtain ⟨S', g, hnew⟩ := reserves_entryKey hr (.of_lives hk) fun _ hc => hc
  have hsealed := g.regular.seal_modifyTable (S := S) (r := r)
    (f := (·.insert (h.key key) ⟨(h.entryKey key).1, value⟩)) g.extended.policy.symm g.more
    fun x hx => (OrderedMap.mem_insert hx).elim (fun hold => .of_mem g.regular hold)
      fun heq => heq ▸ (hnew value (hv.later g.extended)).enters
  exact ⟨g.extended.trans hsealed.1, hsealed.2⟩

end Heap

end Spinel
