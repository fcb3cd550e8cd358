import Mathlib.Data.List.DropRight
import Spinel.Text.Words

/-!
# Texts cut at a separator

What was joined with a separator is cut into the same pieces again, if the first character of the
separator stands in none of them. A text is cut at the occurrences that are met first (`CutAt`), so
joining its pieces gives the text back, and none of them holds the separator. If empty pieces at the
end are left out, as many separators are missing from the end of what is joined (`join_parts`).
-/

namespace Spinel.Text

variable {c : Char} {sep piece : List Char}

/-- Characters that do not begin a separator belong to the open piece. -/
theorem piecesFrom_append (hpiece : c ∉ piece) (acc rest : List Char) :
    piecesFrom (c :: sep) 0 acc (piece ++ rest) =
      piecesFrom (c :: sep) 0 (piece.reverse ++ acc) rest := by
  induction piece generalizing acc with
  | nil => rfl
  | cons d piece ih =>
    obtain ⟨hd, hpiece⟩ := List.ne_and_not_mem_of_not_mem_cons hpiece
    have hother : (c :: sep).isPrefixOf (d :: (piece ++ rest)) = false := by
      simp [List.isPrefixOf, hd]
    rw [List.cons_append, piecesFrom, hother, List.reverse_cons, List.append_assoc]
    exact ih hpiece (d :: acc)

theorem piecesFrom_skip (sep acc skipped rest : List Char) :
    piecesFrom sep skipped.length acc (skipped ++ rest) = piecesFrom sep 0 acc rest := by
  induction skipped with
  | nil => rfl
  | cons d skipped ih => exact ih

theorem piecesFrom_separator (acc rest : List Char) :
    piecesFrom (c :: sep) 0 acc (c :: sep ++ rest) =
      acc.reverse :: piecesFrom (c :: sep) 0 [] rest := by
  have hmet : (c :: sep).isPrefixOf (c :: (sep ++ rest)) = true :=
    List.isPrefixOf_iff_prefix.2 (List.prefix_append (c :: sep) rest)
  rw [List.cons_append, piecesFrom, hmet]
  exact congrArg (acc.reverse :: ·) (piecesFrom_skip (c :: sep) [] sep rest)

/-- Pieces that were joined are cut apart again. -/
theorem pieces_intercalate {parts : List (List Char)} (hne : parts ≠ [])
    (hparts : ∀ piece ∈ parts, c ∉ piece) :
    pieces (c :: sep) ((c :: sep).intercalate parts) = parts := by
  induction parts with
  | nil => exact absurd rfl hne
  | cons piece parts ih =>
    obtain ⟨hpiece, hparts⟩ := List.forall_mem_cons.1 hparts
    unfold pieces at ih ⊢
    cases parts with
    | nil =>
      have hlast : piecesFrom (c :: sep) 0 [] (piece ++ []) = [(piece.reverse ++ []).reverse] :=
        piecesFrom_append hpiece [] []
      rw [List.append_nil, List.append_nil, List.reverse_reverse] at hlast
      rw [List.intercalate_singleton, hlast]
    | cons next parts =>
      rw [List.intercalate_cons_cons, List.append_assoc, piecesFrom_append hpiece,
        piecesFrom_separator, ih (List.cons_ne_nil _ _) hparts, List.append_nil,
        List.reverse_reverse]

/-! ## The occurrences that are met first -/

/-- The parts of a text around the occurrences of a separator that are met first from the left: the
first part ends where the first occurrence begins, and the others are those of the text behind it.
-/
inductive CutAt (sep : List Char) : List Char → List (List Char) → Prop
  | whole {text : List Char} (hnone : ¬sep <:+: text) : CutAt sep text [text]
  | cut {piece rest : List Char} {parts : List (List Char)}
      (hfirst : ∀ front back, piece ++ sep ++ rest = front ++ sep ++ back →
        piece.length ≤ front.length)
      (hrest : CutAt sep rest parts) : CutAt sep (piece ++ sep ++ rest) (piece :: parts)

/-- With an open piece before which no occurrence begins, the text is cut at the first ones. -/
theorem cutAt_piecesFrom (acc : List Char) {text : List Char}
    (hacc : ∀ front back, acc.reverse ++ text = front ++ (c :: sep) ++ back →
      acc.length ≤ front.length) :
    CutAt (c :: sep) (acc.reverse ++ text) (piecesFrom (c :: sep) 0 acc text) := by
  induction hn : text.length using Nat.strong_induction_on generalizing acc text with
  | _ n ih =>
    cases text with
    | nil =>
      rw [List.append_nil] at hacc ⊢
      refine .whole fun ⟨front, back, hinfix⟩ => ?_
      have hle := hacc front back hinfix.symm
      have hlength := congrArg List.length hinfix
      simp only [List.length_append, List.length_cons, List.length_reverse] at hlength
      omega
    | cons d text =>
      by_cases hmet : c :: sep <+: d :: text
      · obtain ⟨rest, hrest⟩ := hmet
        have hlength := congrArg List.length hrest
        simp only [List.length_append, List.length_cons] at hlength hn
        rw [← hrest] at hacc ⊢
        rw [piecesFrom_separator, ← List.append_assoc]
        refine .cut (fun front back h => ?_) ?_
        · rw [List.length_reverse]
          exact hacc front back ((List.append_assoc _ _ _).symm.trans h)
        · exact ih rest.length (by omega) [] (fun _ _ _ => Nat.zero_le _) rfl
      · have hstep : piecesFrom (c :: sep) 0 acc (d :: text) =
            piecesFrom (c :: sep) 0 (d :: acc) text :=
          if_neg (mt List.isPrefixOf_iff_prefix.1 hmet)
        have hmoved : acc.reverse ++ d :: text = (d :: acc).reverse ++ text := by
          rw [List.reverse_cons, List.append_assoc]
          rfl
        rw [hstep, hmoved]
        have hlt : text.length < n := by
          rw [← hn]
          exact Nat.lt_succ_self _
        refine ih text.length hlt _ (fun front back h => ?_) rfl
        rw [← hmoved] at h
        -- An occurrence at the very place of `d` would have been met.
        refine Nat.lt_of_le_of_ne (hacc front back h) fun hlength => hmet ⟨back, ?_⟩
        rw [List.append_assoc] at h
        exact (List.append_inj h (by rw [List.length_reverse, hlength])).2.symm

theorem cutAt_pieces {text : List Char} (hsep : sep ≠ []) : CutAt sep text (pieces sep text) := by
  cases sep with
  | nil => exact absurd rfl hsep
  | cons c sep => exact cutAt_piecesFrom [] fun _ _ _ => Nat.zero_le _

namespace CutAt

variable {text : List Char} {parts : List (List Char)}

theorem ne_nil (h : CutAt sep text parts) : parts ≠ [] := by
  cases h with
  | whole => exact List.cons_ne_nil _ _
  | cut => exact List.cons_ne_nil _ _

theorem intercalate_eq (h : CutAt sep text parts) : sep.intercalate parts = text := by
  induction h with
  | whole => exact List.intercalate_singleton
  | cut hfirst hrest ih => rw [List.intercalate_cons_of_ne_nil hrest.ne_nil, ih]

theorem not_infix_of_mem (h : CutAt sep text parts) (hsep : sep ≠ []) :
    ∀ p ∈ parts, ¬sep <:+: p := by
  induction h with
  | whole hnone => exact List.forall_mem_singleton.2 hnone
  | @cut piece rest parts hfirst hrest ih =>
    refine List.forall_mem_cons.2 ⟨fun ⟨front, back, hinfix⟩ => ?_, ih⟩
    have hle := hfirst front (back ++ sep ++ rest) (by simp only [← hinfix, List.append_assoc])
    have hlength := congrArg List.length hinfix
    have hpos := List.length_pos_of_ne_nil hsep
    simp only [List.length_append] at hlength
    omega

end CutAt

/-! ## Empty pieces at the end -/

theorem exists_eq_dropEmptyEnd_append (parts : List (List Char)) :
    ∃ k, parts = dropEmptyEnd parts ++ List.replicate k [] := by
  refine ⟨(parts.rtakeWhile List.isEmpty).length, ?_⟩
  have hempty : parts.rtakeWhile List.isEmpty =
      List.replicate (parts.rtakeWhile List.isEmpty).length [] :=
    List.eq_replicate_iff.2 ⟨rfl, fun p hp => List.isEmpty_iff.1 (List.mem_rtakeWhile_imp hp)⟩
  rw [← hempty]
  exact List.rdropWhile_append_rtakeWhile.symm

theorem ne_nil_of_getLast?_dropEmptyEnd {parts : List (List Char)} {last : List Char}
    (h : (dropEmptyEnd parts).getLast? = some last) : last ≠ [] := by
  have hne : dropEmptyEnd parts ≠ [] := by
    intro hnil
    rw [hnil] at h
    cases h
  rw [List.getLast?_eq_some_getLast hne] at h
  rw [← Option.some.inj h]
  exact fun hlast => List.rdropWhile_last_not List.isEmpty parts hne (List.isEmpty_iff.2 hlast)

theorem intercalate_cons_replicate (sep first : List Char) (k : Nat) :
    sep.intercalate (first :: List.replicate k []) = first ++ (List.replicate k sep).flatten := by
  induction k generalizing first with
  | zero => simp
  | succ k ih =>
    rw [List.replicate_succ, List.intercalate_cons_cons, ih, List.replicate_succ, List.flatten_cons,
      List.nil_append, List.append_assoc]

/-- Each empty piece at the end is one more separator, but for one that stands alone. -/
theorem exists_intercalate_append_replicate (sep : List Char) (parts : List (List Char)) (k : Nat) :
    ∃ j, sep.intercalate (parts ++ List.replicate k []) =
      sep.intercalate parts ++ (List.replicate j sep).flatten := by
  induction parts with
  | nil =>
    cases k with
    | zero => exact ⟨0, rfl⟩
    | succ k => exact ⟨k, intercalate_cons_replicate sep [] k⟩
  | cons first parts ih =>
    cases parts with
    | nil =>
      refine ⟨k, ?_⟩
      rw [List.intercalate_singleton]
      exact intercalate_cons_replicate sep first k
    | cons next parts =>
      obtain ⟨j, hj⟩ := ih
      refine ⟨j, ?_⟩
      rw [List.intercalate_cons_cons, List.append_assoc, ← hj]
      exact List.intercalate_cons_cons

/-- The pieces of a text without empty ones at the end give it back when they are joined, but for
some separators at the end. -/
theorem join_parts (sep text : List Char) (hsep : sep ≠ []) :
    ∃ k, text = sep.intercalate (dropEmptyEnd (pieces sep text)) ++
      (List.replicate k sep).flatten := by
  obtain ⟨k, hk⟩ := exists_eq_dropEmptyEnd_append (pieces sep text)
  obtain ⟨j, hj⟩ := exists_intercalate_append_replicate sep (dropEmptyEnd (pieces sep text)) k
  refine ⟨j, ?_⟩
  rw [← hj, ← hk, (cutAt_pieces hsep).intercalate_eq]

theorem not_infix_of_mem_parts {text part : List Char} (hsep : sep ≠ [])
    (hpart : part ∈ dropEmptyEnd (pieces sep text)) : ¬sep <:+: part := by
  obtain ⟨k, hk⟩ := exists_eq_dropEmptyEnd_append (pieces sep text)
  have hmem : part ∈ pieces sep text := hk ▸ List.mem_append_left _ hpart
  exact (cutAt_pieces hsep).not_infix_of_mem hsep part hmem

end Spinel.Text
