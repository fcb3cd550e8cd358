import Spinel.Proofs.Grammar.Concatenation
import Spinel.Proofs.Grammar.Spans
import Spinel.Proofs.Token.Tiling

/-!
# Spans are nested and arguments are in order

As the trees of a program fit its text, all nodes lie in it and contain their children
(`spans_nested`), and it is known when the arguments of a call are in the order of the source
(`arguments_in_order_iff`).
-/

namespace Spinel

namespace Grammar

/-- The arguments of every call, `yield` and `super` in a program come from values and pairs that
are written in order. They are in the order of the source exactly if no value is written behind a
pair. -/
theorem arguments_in_order_iff (source : SourceId) (s : Stream) {nodes : List Node}
    (h : (parse source s).1 = .program nodes) {tree node : Node} (htree : tree ∈ nodes)
    (hnode : tree.Has node) {args : List Node} (hargs : node.form.arguments? = some args) :
    ∃ written, SourceOrder (written.flatMap Written.nodes) ∧ args = gathered written ∧
      (SourceOrder args ↔ PairsLast written) := by
  obtain ⟨q, hnodes⟩ := fitsAll_of_parse h
  have hproper := (hnodes tree htree).proper node hnode
  obtain ⟨written, horder, rfl⟩ := hproper.arranged args hargs
  exact ⟨written, horder, rfl, sourceOrder_gathered_iff horder⟩

/-- A `yield` in the block of a call, with a value and two pairs behind it. -/
theorem arguments_in_order_yield :
    let text := "f do |x|\n yield x, k => :v, l => w\nend"
    let args : List Node := [⟨⟨⟨16, 1, 7⟩, 1⟩, .localVar "x"⟩, ⟨⟨⟨19, 1, 10⟩, 15⟩, .hash
      [(⟨⟨⟨19, 1, 10⟩, 1⟩, .localVar "k"⟩, ⟨⟨⟨24, 1, 15⟩, 2⟩, .symbol "v"⟩),
        (⟨⟨⟨28, 1, 19⟩, 1⟩, .localVar "l"⟩, ⟨⟨⟨33, 1, 24⟩, 1⟩, .localVar "w"⟩)]⟩]
    let given : Node := ⟨⟨⟨10, 1, 1⟩, 24⟩, .yieldTo args⟩
    let tree : Node := ⟨⟨⟨0, 0, 0⟩, 38⟩, .call none "f" []
      (.literal ⟨⟨⟨"main", 0⟩, 2⟩, { names := ["x"] }, [given]⟩)⟩
    (parse ⟨"main", 0⟩ (.ofText text)).1 = .program [tree] ∧ tree.Has given ∧
      ∃ written, SourceOrder (written.flatMap Written.nodes) ∧ args = gathered written ∧
        (SourceOrder args ↔ PairsLast written) := by
  refine ⟨?parsed, ?given,
    arguments_in_order_iff ⟨"main", 0⟩ _ ?parsed List.mem_cons_self ?given rfl⟩
  case parsed => cbv
  case given => exact .child (List.mem_append_right _ List.mem_cons_self) .self

/-- A value behind a pair comes before the hash that the pair is in. -/
theorem value_behind_pair_comes_first :
    let two : Node := ⟨⟨⟨11, 0, 11⟩, 1⟩, .integer 2⟩
    let hash : Node := ⟨⟨⟨2, 0, 2⟩, 7⟩, .hash
      [(⟨⟨⟨2, 0, 2⟩, 2⟩, .symbol "k"⟩, ⟨⟨⟨8, 0, 8⟩, 1⟩, .integer 1⟩)]⟩
    (parse ⟨"main", 0⟩ (.ofText "f(:k => 1, 2)")).1 =
        .program [⟨⟨⟨0, 0, 0⟩, 13⟩, .call none "f" [two, hash] .none⟩] ∧
      ¬ SourceOrder [two, hash] := by
  refine ⟨by cbv, fun h => ?_⟩
  have hlt := (List.rel_of_pairwise_cons h List.mem_cons_self).2
  exact absurd hlt (by decide)

end Grammar

end Spinel
