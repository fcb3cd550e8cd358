import Spinel.Heap.Keys

/-!
# Heaps that only grow

Writing down data adds texts, arrays and hashes to the heap and changes no cell that is there.
`Heap.Grows` says so of two heaps, and each of the steps that allocate such cells is an instance.
-/

namespace Spinel

/-- Cells were added at most. -/
structure Store.Grows {α : Type} [Inhabited α] (s s' : Store α) : Prop where
  size_le : s.size ≤ s'.size
  get_eq : ∀ {i}, i < s.size → s'.get i = s.get i

namespace Store.Grows

variable {α : Type} [Inhabited α] {s t u : Store α}

theorem refl (s : Store α) : s.Grows s := ⟨Nat.le_refl _, fun _ => rfl⟩

theorem trans (h : s.Grows t) (h' : t.Grows u) : s.Grows u :=
  ⟨Nat.le_trans h.size_le h'.size_le, fun hi =>
    (h'.get_eq (Nat.lt_of_lt_of_le hi h.size_le)).trans (h.get_eq hi)⟩

theorem push (s : Store α) (a : α) : s.Grows (s.push a) :=
  ⟨by simp, fun hi => get_push_of_lt hi a⟩

end Store.Grows

/-- Texts, arrays and hashes were added at most, and classes are as they were. -/
structure Heap.Grows (h h' : Heap) : Prop where
  texts : h.texts.Grows h'.texts
  lists : h.lists.Grows h'.lists
  tables : h.tables.Grows h'.tables
  classes : h'.classes = h.classes

namespace Heap.Grows

variable {h h' h'' : Heap}

theorem refl (h : Heap) : h.Grows h := ⟨.refl _, .refl _, .refl _, rfl⟩

theorem trans (g : h.Grows h') (g' : h'.Grows h'') : h.Grows h'' :=
  ⟨g.texts.trans g'.texts, g.lists.trans g'.lists, g.tables.trans g'.tables,
    g'.classes.trans g.classes⟩

theorem newText (h : Heap) (s : String) : h.Grows (h.newText s).2 :=
  ⟨.push _ _, .refl _, .refl _, rfl⟩

theorem newList (h : Heap) (items : Array Value) : h.Grows (h.newList items).2 :=
  ⟨.refl _, .push _ _, .refl _, rfl⟩

theorem newTable (h : Heap) (t : Table) : h.Grows (h.newTable t).2 :=
  ⟨.refl _, .refl _, .push _ _, rfl⟩

theorem entryKey (h : Heap) (v : Value) : h.Grows (h.entryKey v).2 := by
  cases v with
  | str r => exact .newText h _
  | _ => exact .refl h

theorem text_eq (g : h.Grows h') {r : TextRef} (hr : r.index < h.texts.size) :
    h'.text r = h.text r := g.texts.get_eq hr

theorem list_eq (g : h.Grows h') {r : ListRef} (hr : r.index < h.lists.size) :
    h'.list r = h.list r := g.lists.get_eq hr

theorem table_eq (g : h.Grows h') {r : TableRef} (hr : r.index < h.tables.size) :
    h'.table r = h.table r := g.tables.get_eq hr

end Heap.Grows

end Spinel
