import Mathlib.Data.List.Induction
import Spinel.Source.Buffer
import Spinel.Proofs.Token.Tiling

/-!
# Tables of line starts

The table of a buffer has an entry for the first line and one for every line feed (`startsOf`), and
grows with the characters (`extend_eq`). Behind a beginning of the text, halving the table finds the
line that this beginning ends on, and with it the place (`position?_eq`). The lines of the text
begin where the table says (`dropLines_eq_startsOf`).
-/

namespace Spinel.Buffer

/-! ## Entries -/

/-- Where lines begin behind the line feeds of `cs`, with `k` characters before them. -/
def startsFrom (k : Nat) : List Char → List Nat
  | [] => []
  | c :: cs => if c = '\n' then (k + 1) :: startsFrom (k + 1) cs else startsFrom (k + 1) cs

/-- Where the lines of a text begin. -/
def startsOf (cs : List Char) : List Nat := 0 :: startsFrom 0 cs

theorem startsFrom_append (k : Nat) (cs ds : List Char) :
    startsFrom k (cs ++ ds) = startsFrom k cs ++ startsFrom (k + cs.length) ds := by
  induction cs generalizing k with
  | nil => simp [startsFrom]
  | cons c cs ih =>
    have hlength : k + (c :: cs).length = k + 1 + cs.length := by
      rw [List.length_cons]
      omega
    rw [List.cons_append, startsFrom, startsFrom, ih, hlength]
    split <;> rfl

theorem length_startsFrom (k : Nat) (cs : List Char) :
    (startsFrom k cs).length = cs.count '\n' := by
  induction cs generalizing k with
  | nil => rfl
  | cons c cs ih =>
    rw [startsFrom, List.count_cons]
    split
    · next hc => simp [hc, ih]
    · next hc => simp [hc, ih]

theorem startsFrom_succ (k : Nat) (cs : List Char) :
    startsFrom (k + 1) cs = (startsFrom k cs).map (· + 1) := by
  induction cs generalizing k with
  | nil => rfl
  | cons c cs ih =>
    rw [startsFrom, startsFrom, ih]
    split <;> rfl

theorem bounds_of_mem_startsFrom {k start : Nat} {cs : List Char} (h : start ∈ startsFrom k cs) :
    k < start ∧ start ≤ k + cs.length := by
  induction cs generalizing k with
  | nil => cases h
  | cons c cs ih =>
    have hrest : start ∈ startsFrom (k + 1) cs → k < start ∧ start ≤ k + (c :: cs).length := by
      intro hmem
      obtain ⟨hlow, hhigh⟩ := ih hmem
      rw [List.length_cons]
      omega
    rw [startsFrom] at h
    split at h
    · rcases List.mem_cons.1 h with rfl | hmem
      · rw [List.length_cons]
        omega
      · exact hrest hmem
    · exact hrest h

theorem startsOf_append (cs ds : List Char) :
    startsOf (cs ++ ds) = startsOf cs ++ startsFrom cs.length ds := by
  rw [startsOf, startsFrom_append, Nat.zero_add]
  rfl

theorem length_startsOf (cs : List Char) : (startsOf cs).length = cs.count '\n' + 1 := by
  rw [startsOf, List.length_cons, length_startsFrom]

theorem le_of_mem_startsOf {start : Nat} {cs : List Char} (h : start ∈ startsOf cs) :
    start ≤ cs.length := by
  rcases List.mem_cons.1 h with rfl | hmem
  · exact Nat.zero_le _
  · exact Nat.zero_add cs.length ▸ (bounds_of_mem_startsFrom hmem).2

/-- The last line of a text begins as many characters before its end as stand on that line. -/
theorem last_startsOf (cs : List Char) :
    ∃ start, (startsOf cs)[cs.count '\n']? = some start ∧
      start + (Position.lastLine cs).length = cs.length := by
  induction cs using List.reverseRecOn with
  | nil => exact ⟨0, rfl, rfl⟩
  | append_singleton cs c ih =>
    obtain ⟨start, hstart, hcolumn⟩ := ih
    rw [Position.lastLine_append_singleton, startsOf_append, List.length_append,
      List.length_singleton, List.count_append]
    by_cases hc : c = '\n'
    · subst hc
      refine ⟨cs.length + 1, ?_, ?_⟩
      · rw [List.getElem?_append_right (by rw [length_startsOf]; simp), length_startsOf]
        simp [startsFrom]
      · simp
    · refine ⟨start, ?_, ?_⟩
      · simpa [startsFrom, hc] using hstart
      · rw [if_neg hc, List.length_cons]
        omega

theorem extend_eq (b : Buffer) (cs : List Char) :
    b.extend cs = { b with
      chars := b.chars ++ cs.toArray
      lineStarts := b.lineStarts ++ (startsFrom b.chars.size cs).toArray } := by
  induction cs generalizing b with
  | nil => simp [extend, startsFrom]
  | cons c cs ih =>
    have hpush : b.extend (c :: cs) = (b.push c).extend cs := rfl
    rw [hpush, ih, startsFrom]
    by_cases hc : c = '\n'
    · simp [push, hc]
    · simp [push, hc]

/-! ## Looking up -/

/-- Halving a table finds where its entries that are at most `offset` end. -/
theorem search_eq {starts : Array Nat} {offset low high : Nat} {as bs : List Nat}
    (h : starts.toList = as ++ bs) (has : ∀ start ∈ as, start ≤ offset)
    (hbs : ∀ start ∈ bs, offset < start) (hlow : low ≤ as.length) (hhigh : as.length ≤ high)
    (hsize : high ≤ starts.size) : search starts offset low high = some as.length := by
  have hlength : starts.size = as.length + bs.length := by
    rw [← Array.length_toList, h, List.length_append]
  fun_induction search starts offset low high with
  | case1 low high hlt middle hnone =>
    have hout := Array.getElem?_eq_none_iff.1 hnone
    omega
  | case2 low high hlt middle start hstart hle ih =>
    -- The entry in the middle is none of `bs`, so `as` reaches beyond it.
    apply ih
    · by_contra hbeyond
      rw [← Array.getElem?_toList, h, List.getElem?_append_right (by omega)] at hstart
      exact absurd (hbs start (List.mem_of_getElem? hstart)) (by omega)
    · exact hhigh
    · exact hsize
  | case3 low high hlt middle start hstart hle ih =>
    -- The entry in the middle is none of `as`.
    apply ih
    · exact hlow
    · by_contra hbefore
      rw [← Array.getElem?_toList, h, List.getElem?_append_left (by omega)] at hstart
      exact hle (has start (List.mem_of_getElem? hstart))
    · omega
  | case4 low high hle =>
    congr 1
    omega

/-- In a table of the lines of a text, the place behind a beginning of that text is found. -/
theorem position?_eq {b : Buffer} {cs ds : List Char}
    (htable : b.lineStarts.toList = startsOf (cs ++ ds)) (hcursor : b.cursor = cs.length) :
    b.position? = some (Position.after cs) := by
  have hsplit : b.lineStarts.toList = startsOf cs ++ startsFrom cs.length ds := by
    rw [htable, startsOf_append]
  have hlength := length_startsOf cs
  have hsize : b.lineStarts.size = (startsOf cs).length + (startsFrom cs.length ds).length := by
    rw [← Array.length_toList, hsplit, List.length_append]
  have hsearch : search b.lineStarts cs.length 0 b.lineStarts.size = some (cs.count '\n' + 1) := by
    rw [← hlength]
    apply search_eq hsplit
    · exact fun start hmem => le_of_mem_startsOf hmem
    · exact fun start hmem => (bounds_of_mem_startsFrom hmem).1
    · exact Nat.zero_le _
    · omega
    · exact Nat.le_refl _
  obtain ⟨start, hstart, hcolumn⟩ := last_startsOf cs
  have hentry : b.lineStarts[cs.count '\n']? = some start := by
    rw [← Array.getElem?_toList, hsplit, List.getElem?_append_left (by omega), hstart]
  unfold position?
  simp only [hcursor, hsearch, hentry, Option.bind_eq_bind, Option.bind_some]
  have hrest : cs.length - start = (Position.lastLine cs).length := by omega
  rw [if_pos (by omega), hrest]
  rfl

/-- The rest of a text behind its first `n` line feeds begins where the table says. -/
theorem dropLines_eq_startsOf (n : Nat) (cs : List Char) :
    Stream.dropLines n cs = (startsOf cs)[n]?.map (cs.drop ·) := by
  induction cs generalizing n with
  | nil => cases n <;> rfl
  | cons c cs ih =>
    cases n with
    | zero => rfl
    | succ n =>
      rw [Stream.dropLines_succ_cons, startsOf, List.getElem?_cons_succ, startsFrom,
        startsFrom_succ]
      split
      · have hmap : (0 + 1) :: (startsFrom 0 cs).map (· + 1) = (startsOf cs).map (· + 1) := rfl
        rw [ih, hmap, List.getElem?_map, Option.map_map]
        rfl
      · rw [ih, startsOf, List.getElem?_cons_succ, List.getElem?_map, Option.map_map]
        rfl

end Spinel.Buffer
