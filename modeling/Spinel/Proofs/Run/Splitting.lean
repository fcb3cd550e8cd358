import Spinel.Proofs.Heap.Growth
import Spinel.Proofs.Run.Numerals
import Spinel.Proofs.Text.Words

/-!
# Splitting and joining strings

A string that is split at a separator becomes an array of new strings. When these are joined with
the separator, the string comes out again, but for separators at its end (`split_then_join`).
-/

namespace Spinel

open Run

variable {w : World} {parts : List String} {a : ListRef}

/-! ## Arrays of strings -/

/-- The items of an array are strings with some texts. -/
def Heap.HoldsTexts (h : Heap) (a : ListRef) (parts : List String) : Prop :=
  ∃ refs : List TextRef, (h.list a).toList = refs.map .str ∧ refs.map h.text = parts

theorem Heap.Grows.map_text_eq {h h' : Heap} (g : h.Grows h') {refs : List TextRef}
    (hrefs : ∀ r ∈ refs, r.index < h.texts.size) : refs.map h'.text = refs.map h.text :=
  List.map_congr_left fun r hr => g.text_eq (hrefs r hr)

theorem Run.newTexts_apply (texts : List String) (w : World) :
    ∃ (refs : List TextRef) (heap : Heap),
      newTexts texts w = .ok (refs.map .str) { w with heap } ∧ refs.map heap.text = texts ∧
        (∀ r ∈ refs, r.index < heap.texts.size) ∧ w.heap.Grows heap ∧
        heap.lists = w.heap.lists := by
  induction texts generalizing w with
  | nil => exact ⟨[], w.heap, rfl, rfl, nofun, .refl _, rfl⟩
  | cons s rest ih =>
    let first : TextRef := ⟨w.heap.texts.size⟩
    let w₁ : World := { w with heap := (w.heap.newText s).2 }
    obtain ⟨refs, heap, hrest, htexts, hrefs, hgrows, hlists⟩ := ih w₁
    have hfirst : first.index < w₁.heap.texts.size := by
      change w.heap.texts.size < (w.heap.texts.push s).size
      rw [Store.size_push]
      exact Nat.lt_succ_self _
    refine ⟨first :: refs, heap, ?_, ?_, ?_, (Heap.Grows.newText w.heap s).trans hgrows, hlists⟩
    · have hnew : newText s w = .ok (.str first) w₁ := rfl
      exact (bind_of_ok hnew _).trans (bind_of_ok hrest _)
    · have htext : w₁.heap.text first = s := Store.get_push_size w.heap.texts s
      rw [List.map_cons, htexts, hgrows.text_eq hfirst, htext]
    · exact List.forall_mem_cons.2 ⟨Nat.lt_of_lt_of_le hfirst hgrows.texts.size_le, hrefs⟩

theorem Texts.newTextArray_apply (texts : List (List Char)) (w : World) :
    ∃ heap : Heap, newTextArray texts w = .ok (.array ⟨w.heap.lists.size⟩) { w with heap } ∧
      heap.HoldsTexts ⟨w.heap.lists.size⟩ (texts.map .ofList) ∧ w.heap.Grows heap := by
  obtain ⟨refs, heap, htexts, hmap, hrefs, hgrows, hlists⟩ :=
    newTexts_apply (texts.map String.ofList) w
  let items : List Value := refs.map .str
  have hgrown := Heap.Grows.newList heap items.toArray
  refine ⟨(heap.newList items.toArray).2, ?_, ⟨refs, ?_, ?_⟩, hgrows.trans hgrown⟩
  · rw [← hlists]
    exact bind_of_ok htexts _
  · have hnew : (heap.newList items.toArray).2.list ⟨w.heap.lists.size⟩ = items.toArray := by
      rw [← hlists]
      exact Store.get_push_size heap.lists items.toArray
    rw [hnew]
  · rw [hgrown.map_text_eq hrefs, hmap]

/-! ## Joining -/

namespace Lists

variable (interp : Interp)

theorem joined_texts_apply (nested : ListRef → Run String) (refs : List TextRef) (w : World) :
    joined.texts interp nested (refs.map .str) w = .ok (refs.map w.heap.text) w := by
  induction refs with
  | nil => rfl
  | cons r refs ih =>
    have hfirst : interp.text (.str r) w = .ok (w.heap.text r) w := rfl
    exact (bind_of_ok hfirst _).trans (bind_of_ok ih _)

theorem joined_apply (sep : String) (n : Nat) (h : w.heap.HoldsTexts a parts)
    (hshown : Identity.list a ∉ w.inspecting) :
    joined interp sep (n + 1) a w = .ok (sep.intercalate parts) w := by
  obtain ⟨refs, hitems, htexts⟩ := h
  have hread : reading (·.list a) w = .ok (w.heap.list a) w := rfl
  unfold joined
  rw [bind_of_ok hread]
  unfold guardInspecting
  rw [if_neg (mt List.contains_iff_mem.1 hshown), hitems, ← htexts]
  rw [bind_of_ok (joined_texts_apply interp _ refs _)]
  rfl

theorem givesText_run_join {sep : String} {receiver v : Value}
    (hreceiver : w.heap.listRef? receiver = some a) (h : w.heap.HoldsTexts a parts)
    (hsep : w.heap.text? v = some sep) (hshown : Identity.list a ∉ w.inspecting) (n : Nat)
    (block : Option Callable) :
    (Builtin.run interp (n + 1) (.array .join) ⟨receiver, [v], block⟩).GivesText
      (sep.intercalate parts) w := by
  have hrun : Builtin.run interp (n + 1) (.array .join) ⟨receiver, [v], block⟩ w =
      newText (sep.intercalate parts) w := by
    have hlist : needList receiver w = .ok a w := needs_of_some hreceiver
    have htext : needText v w = .ok sep w := needs_of_some hsep
    refine (bind_of_ok hlist _).trans ((bind_of_ok htext _).trans ?_)
    exact bind_of_ok (joined_apply interp sep n h hshown) _
  obtain ⟨u, w', hnew, hu⟩ := givesText_newText (sep.intercalate parts) w
  exact ⟨u, w', hrun.trans hnew, hu⟩

end Lists

/-! ## Splitting -/

theorem Texts.run_split {receiver : Value} {r : TextRef} {text sep : String}
    (hs : w.heap.text? receiver = some text) (hr : w.heap.text r = sep) (hne : sep ≠ "")
    (hblank : sep ≠ " ") (block : Option Callable) :
    Texts.run .split ⟨receiver, [.str r], block⟩ w =
      newTextArray (Text.dropEmptyEnd (Text.pieces sep.toList text.toList)) w := by
  have htext : needText receiver w = .ok text w := needs_of_some hs
  have hread : reading (·.text r) w = .ok sep w := congrArg (EStateM.Result.ok · w) hr
  have hparts : parts sep.toList text.toList =
      Text.dropEmptyEnd (Text.pieces sep.toList text.toList) := by
    have hspace : sep.toList ≠ [' '] := fun h => hblank (String.toList_inj.1 h)
    have hfull : ¬sep.toList.isEmpty := fun h =>
      hne (String.toList_inj.1 (List.isEmpty_iff.1 h))
    unfold parts
    rw [if_neg hspace, if_neg hfull]
  rw [← hparts]
  exact (bind_of_ok htext _).trans (bind_of_ok hread _)

theorem Texts.toList_copies (s : String) (k : Nat) :
    (copies s k).toList = (List.replicate k s.toList).flatten := by
  unfold copies
  split
  · next hempty =>
    rw [String.isEmpty_iff.1 hempty]
    simp
  · rw [String.toList_join, List.flatMap_replicate]

/-- A string that is split at a separator, neither the empty one nor a blank, gives an array of
parts. No part holds the separator, the last one is not empty, and joining them with the separator
gives the string but for some separators at its end. The arrays that are being shown at the time are
on the heap, so the new one is none of them. -/
theorem split_then_join (interp : Interp) (n : Nat) (w : World) (receiver : Value) (r : TextRef)
    (block : Option Callable) (text sep : String) (hs : w.heap.text? receiver = some text)
    (hr : w.heap.text r = sep) (hne : sep ≠ "") (hblank : sep ≠ " ")
    (hshown : ∀ b, Identity.list b ∈ w.inspecting → b.index < w.heap.lists.size) :
    ∃ (a : ListRef) (w' : World) (parts : List String) (k : Nat),
      Builtin.run interp n (.string .split) ⟨receiver, [.str r], block⟩ w = .ok (.array a) w' ∧
        w'.heap.HoldsTexts a parts ∧
        (∀ part ∈ parts, ¬sep.toList <:+: part.toList) ∧
        (∀ last, parts.getLast? = some last → last ≠ "") ∧
        (∀ (interp' : Interp) (n' : Nat) (block' : Option Callable),
          (Builtin.run interp' (n' + 1) (.array .join) ⟨.array a, [.str r], block'⟩).GivesText
            (sep.intercalate parts) w') ∧
        text = sep.intercalate parts ++ Texts.copies sep k := by
  have hsep : sep.toList ≠ [] := fun h => hne (String.toList_inj.1 h)
  obtain ⟨heap, harray, hholds, hgrows⟩ := Texts.newTextArray_apply
    (Text.dropEmptyEnd (Text.pieces sep.toList text.toList)) w
  obtain ⟨k, hk⟩ := Text.join_parts sep.toList text.toList hsep
  refine ⟨⟨w.heap.lists.size⟩, { w with heap }, _, k,
    (Texts.run_split hs hr hne hblank block).trans harray, hholds, ?_, ?_, ?_, ?_⟩
  · intro part hpart
    obtain ⟨cs, hcs, rfl⟩ := List.mem_map.1 hpart
    rw [String.toList_ofList]
    exact Text.not_infix_of_mem_parts hsep hcs
  · intro last hlast
    rw [List.getLast?_map] at hlast
    obtain ⟨cs, hcs, rfl⟩ := Option.map_eq_some_iff.1 hlast
    exact fun hempty => Text.ne_nil_of_getLast?_dropEmptyEnd hcs
      (String.toList_ofList.symm.trans (String.toList_inj.2 hempty))
  · intro interp' n' block'
    -- A text that is not empty is one of the heap, so it is the same after the split.
    have hlives : r.index < w.heap.texts.size := by
      refine Nat.lt_of_not_le fun hout => hne ?_
      rw [← hr]
      exact Store.get_of_size_le hout
    have hsame : heap.text? (.str r) = some sep := by
      change some (heap.text r) = some sep
      rw [hgrows.text_eq hlives, hr]
    have hnew : Identity.list ⟨w.heap.lists.size⟩ ∉ w.inspecting := fun h =>
      Nat.lt_irrefl _ (hshown _ h)
    let w' : World := { w with heap }
    exact Lists.givesText_run_join (w := w') interp' rfl hholds hsame hnew n' block'
  · apply String.toList_inj.1
    rw [String.toList_append, String.toList_intercalate, List.map_map, Texts.toList_copies]
    have hid : String.toList ∘ String.ofList = id := funext fun _ => String.toList_ofList
    rw [hid, List.map_id]
    exact hk

/-- A separator that overlaps itself, at both ends of a text and twice in a row. -/
theorem split_then_join_overlapping :
    let w : World := { heap := ((Core.heap.newText "aaabaaaaa").2.newText "aa").2 }
    w.heap.text? (.str ⟨0⟩) = some "aaabaaaaa" ∧ w.heap.text ⟨1⟩ = "aa" ∧ w.inspecting = [] ∧
      ∃ (a : ListRef) (w' : World) (parts : List String) (k : Nat),
        Builtin.run Session.evaluator 0 (.string .split) ⟨.str ⟨0⟩, [.str ⟨1⟩], none⟩ w =
            .ok (.array a) w' ∧
          w'.heap.HoldsTexts a parts ∧
          (∀ part ∈ parts, ¬"aa".toList <:+: part.toList) ∧
          (∀ last, parts.getLast? = some last → last ≠ "") ∧
          (∀ (interp' : Interp) (n' : Nat) (block' : Option Callable),
            (Builtin.run interp' (n' + 1) (.array .join)
              ⟨.array a, [.str ⟨1⟩], block'⟩).GivesText ("aa".intercalate parts) w') ∧
          "aaabaaaaa" = "aa".intercalate parts ++ Texts.copies "aa" k := by
  intro w
  refine ⟨rfl, rfl, rfl, ?_⟩
  exact split_then_join Session.evaluator 0 w (.str ⟨0⟩) ⟨1⟩ none "aaabaaaaa" "aa" rfl rfl
    (by decide) (by decide) nofun

end Spinel
