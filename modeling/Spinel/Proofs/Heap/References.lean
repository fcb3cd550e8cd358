import Spinel.Proofs.Heap.Extension
import Spinel.Proofs.OrderedMap
import Spinel.Proofs.Tree

/-!
# References that are good

`Lives h a` says that whatever `a` refers to is a cell of the heap `h`, that the procs in it are no
built-in methods, the classes in it no singletons and the texts in it not kept from programs, and
that the trees in it are sound if programs are read from texts. It holds on in the heaps that extend
`h`. Values, collections of values and all else that programs hand around are instances of one
class, so that there is one notion for what a computation may be given and for what it gives back.
-/

namespace Spinel

/-! ## Things that refer to cells -/

/-- Things that refer to cells of the heap. -/
class Refers (α : Type) where
  /-- All that it refers to is on the heap. -/
  Lives : [Secrecy] → Heap → α → Prop
  extend : ∀ {S S' : Secrecy} {h h' : Heap} {a : α}, @Lives S h a →
    Heap.ExtendsFrom S h S' h' → @Lives S' h' a

export Refers (Lives)

/-- What refers to cells of a heap refers to cells of the heaps after it. -/
theorem Refers.Lives.later {α : Type} [Refers α] {S S' : Secrecy} {h h' : Heap} {a : α}
    (ha : @Lives α _ S h a) (e : Heap.ExtendsFrom S h S' h') : @Lives α _ S' h' a :=
  Refers.extend ha e

/-! ## Trees and lists -/

instance : Refers Node where
  Lives := fun [S : Secrecy] _ node => S.fromText → node.Sound
  extend := fun hn e ht => hn (e.policy ▸ ht)

instance {α : Type} [Refers α] : Refers (List α) where
  Lives := fun h as => ∀ a ∈ as, Lives h a
  extend := fun has e a ha => (has a ha).later e

theorem lives_children [Secrecy] {h : Heap} {node : Node} (hn : Lives h node) :
    Lives h node.form.children :=
  fun c hc ht => (hn ht).child c hc

/-! ## Callables and values -/

/-- The scope of a callable is on the heap, and its body can be run there. -/
def Callable.InScope [Secrecy] (h : Heap) : Callable → Prop
  | .method m s => s.index < h.scopes.size ∧ Lives h m.body
  | .block b s => s.index < h.scopes.size ∧ Lives h b.body
  | .builtin _ | .native .. => True

def Callable.isBuiltin : Callable → Bool
  | .builtin _ => true
  | _ => false

/-- A callable that programs can get hold of, as a block or a proc. -/
def Callable.IsProc [Secrecy] (h : Heap) (c : Callable) : Prop :=
  c.InScope h ∧ c.isBuiltin = false

def Value.Lives [S : Secrecy] (h : Heap) : Value → Prop
  | .str r => r.index < h.texts.size ∧ ¬S.Hides h r
  | .array r => r.index < h.lists.size
  | .hash r => r.index < h.tables.size
  | .object r => r.index < h.objects.size
  | .klass c => c.index < h.classes.size ∧ (h.klass c).isSingleton = false
  | .proc c => c.IsProc h
  | .nil | .bool _ | .int _ | .float _ | .symbol _ | .range .. => True

theorem Callable.InScope.later {S S' : Secrecy} {h h' : Heap} {c : Callable}
    (hc : @Callable.InScope S h c) (e : Heap.ExtendsFrom S h S' h') :
    @Callable.InScope S' h' c := by
  cases c with
  | method m s => exact ⟨Nat.lt_of_lt_of_le hc.1 e.enlarges.scopes, hc.2.later e⟩
  | block b s => exact ⟨Nat.lt_of_lt_of_le hc.1 e.enlarges.scopes, hc.2.later e⟩
  | builtin b => trivial
  | native serial n => trivial

section Instances

variable {α β κ : Type}

instance : Refers Callable where
  Lives := fun h c => c.IsProc h
  extend := fun hc e => ⟨hc.1.later e, hc.2⟩

instance : Refers TextRef where
  Lives := fun [S : Secrecy] h r => r.index < h.texts.size ∧ ¬S.Hides h r
  extend := fun hr e => ⟨Nat.lt_of_lt_of_le hr.1 e.enlarges.texts,
    fun hhid => hr.2 (e.hides _ hr.1 hhid).1⟩

instance : Refers ListRef where
  Lives := fun h r => r.index < h.lists.size
  extend := fun hr e => Nat.lt_of_lt_of_le hr e.enlarges.lists

instance : Refers TableRef where
  Lives := fun h r => r.index < h.tables.size
  extend := fun hr e => Nat.lt_of_lt_of_le hr e.enlarges.tables

instance : Refers ObjectRef where
  Lives := fun h r => r.index < h.objects.size
  extend := fun hr e => Nat.lt_of_lt_of_le hr e.enlarges.objects

instance : Refers ClassRef where
  Lives := fun h c => c.index < h.classes.size
  extend := fun hr e => Nat.lt_of_lt_of_le hr e.enlarges.classes

instance : Refers ScopeRef where
  Lives := fun h s => s.index < h.scopes.size
  extend := fun hr e => Nat.lt_of_lt_of_le hr e.enlarges.scopes

instance : Refers Value where
  Lives := Value.Lives
  extend := by
    intro S S' h h' v hv e
    cases v with
    | str r =>
      have hr : @Lives TextRef _ S h r := hv
      exact hr.later e
    | array r => exact Nat.lt_of_lt_of_le hv e.enlarges.lists
    | hash r => exact Nat.lt_of_lt_of_le hv e.enlarges.tables
    | object r => exact Nat.lt_of_lt_of_le hv e.enlarges.objects
    | klass c =>
      exact ⟨Nat.lt_of_lt_of_le hv.1 e.enlarges.classes,
        (e.enlarges.grows c hv.1).isSingleton.trans hv.2⟩
    | proc c => exact ⟨hv.1.later e, hv.2⟩
    | nil | bool _ | int _ | float _ | symbol _ | range _ _ => trivial

instance [Refers α] : Refers (Option α) where
  Lives := fun h o => ∀ a, o = some a → Lives h a
  extend := fun ho e a ha => (ho a ha).later e

instance [Refers α] : Refers (Array α) where
  Lives := fun h as => ∀ a ∈ as, Lives h a
  extend := fun has e a ha => (has a ha).later e

instance [Refers α] [Refers β] : Refers (α × β) where
  Lives := fun h p => Lives h p.1 ∧ Lives h p.2
  extend := fun hp e => ⟨hp.1.later e, hp.2.later e⟩

instance [Refers α] : Refers (OrderedMap κ α) where
  Lives := fun h m => ∀ e ∈ m.entries, Lives h e.2
  extend := fun hm e p hp => (hm p hp).later e

instance : Refers Scope where
  Lives := fun h s => Lives h s.locals ∧ Lives h s.parent ∧ Lives h s.receiver ∧
    Lives h (s.module.map Value.klass) ∧ Lives h s.block
  extend := fun hs e => ⟨hs.1.later e, hs.2.1.later e, hs.2.2.1.later e, hs.2.2.2.1.later e,
    hs.2.2.2.2.later e⟩

instance : Refers Call where
  Lives := fun h c => Lives h c.receiver ∧ Lives h c.args ∧ Lives h c.block
  extend := fun hc e => ⟨hc.1.later e, hc.2.1.later e, hc.2.2.later e⟩

/-- What has no references lives on every heap. -/
instance (priority := low) : Refers α where
  Lives := fun _ _ => True
  extend := fun _ _ => trivial

/-! ## Collections -/

variable [Refers α] [Secrecy] {h : Heap}

@[simp] theorem lives_none : Lives h (none : Option α) := fun _ ha => by cases ha

@[simp] theorem lives_some {a : α} : Lives h (some a) ↔ Lives h a :=
  ⟨fun ha => ha a rfl, fun ha _ hb => by cases hb; exact ha⟩

@[simp] theorem lives_nil : Lives h ([] : List α) := fun _ ha => by cases ha

@[simp] theorem lives_cons {a : α} {as : List α} :
    Lives h (a :: as) ↔ Lives h a ∧ Lives h as :=
  List.forall_mem_cons

@[simp] theorem lives_append {as bs : List α} : Lives h (as ++ bs) ↔ Lives h as ∧ Lives h bs :=
  List.forall_mem_append

@[simp] theorem lives_toArray {as : List α} : Lives h as.toArray ↔ Lives h as :=
  forall_congr' fun _ => by rw [List.mem_toArray]

@[simp] theorem lives_toList {as : Array α} : Lives h as.toList ↔ Lives h as :=
  forall_congr' fun _ => by rw [Array.mem_toList_iff]

@[simp] theorem lives_optionToList {o : Option α} : Lives h o.toList ↔ Lives h o :=
  forall_congr' fun _ => by rw [Option.mem_toList]

theorem lives_of_flatMap {ps : List (α × α)} (hps : Lives h (ps.flatMap fun p => [p.1, p.2])) :
    Lives h ps :=
  fun p hp => ⟨hps _ (List.mem_flatMap.2 ⟨p, hp, List.mem_cons_self⟩),
    hps _ (List.mem_flatMap.2 ⟨p, hp, List.mem_cons_of_mem _ List.mem_cons_self⟩)⟩

theorem lives_map {f : β → α} {bs : List β} (hf : ∀ b ∈ bs, Lives h (f b)) :
    Lives h (bs.map f) := by
  intro a ha
  obtain ⟨b, hb, rfl⟩ := List.mem_map.1 ha
  exact hf b hb

@[simp] theorem lives_ofOption {v : Option Value} (hv : Lives h v) :
    Lives h (Value.ofOption v) := by
  cases v with
  | none => trivial
  | some v => exact hv v rfl

end Instances

/-! ## Maps -/

namespace OrderedMap

theorem lives_empty {κ α : Type} [Refers α] [Secrecy] {h : Heap} :
    Lives h (.empty : OrderedMap κ α) :=
  fun _ he => by cases he

variable {κ α : Type} [BEq κ] {k : κ} {a : α}

theorem mem_of_find {l : List (κ × α)} (hf : find k l = some a) : ∃ k', (k', a) ∈ l := by
  induction l with
  | nil => cases hf
  | cons e rest ih =>
    obtain ⟨k', a'⟩ := e
    unfold find at hf
    split at hf
    · cases hf
      exact ⟨k', List.mem_cons_self⟩
    · obtain ⟨k'', hmem⟩ := ih hf
      exact ⟨k'', List.mem_cons_of_mem _ hmem⟩

variable [Refers α] [Secrecy] {h : Heap} {m : OrderedMap κ α}

theorem lives_of_get? (hm : Lives h m) (hk : m.get? k = some a) : Lives h a := by
  obtain ⟨k', hmem⟩ := mem_of_find hk
  exact hm (k', a) hmem

variable [LawfulBEq κ]

theorem lives_insert (hm : Lives h m) (ha : Lives h a) : Lives h (m.insert k a) := by
  intro e he
  rcases mem_insert he with he | rfl
  · exact hm e he
  · exact ha

theorem lives_ofList {pairs : List (κ × α)} (hp : ∀ p ∈ pairs, Lives h p.2) :
    Lives h (ofList pairs) := by
  have hfold : ∀ (pairs : List (κ × α)) (m : OrderedMap κ α), Lives h m →
      (∀ p ∈ pairs, Lives h p.2) → Lives h (pairs.foldl (fun m p => m.insert p.1 p.2) m) := by
    intro pairs
    induction pairs with
    | nil => exact fun m hm _ => hm
    | cons p rest ih =>
      intro m hm hp
      exact ih _ (lives_insert hm (hp p List.mem_cons_self))
        fun q hq => hp q (List.mem_cons_of_mem _ hq)
  exact hfold pairs _ lives_empty hp

end OrderedMap

end Spinel
