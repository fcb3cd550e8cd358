import Spinel.Evaluation.Invocation
import Spinel.Proofs.Law.Rules

/-!
# Built-in methods keep every law

One lemma for each function that the built-in methods are made of, in the order of their
definitions. What goes through a list or counts down is done by induction, all else by its cases.
-/

namespace Spinel

open Run

variable {σ : Type} {L : Law} {I J : Interp} (receiver : Value) (args : List Value) (call : Call)

/-! ## Global functions -/

@[grind ←]
theorem Interp.holds_lines_all {f g : Value → Run (List String)} (hf : ∀ v, L.Holds (f v) (g v))
    (vs : List Value) : L.Holds (Interp.lines.all f vs) (Interp.lines.all g vs) := by
  induction vs with
  | nil => exact holds_pure _
  | cons v rest ih =>
    unfold Interp.lines.all
    grind -funext

@[grind ←]
theorem Interp.holds_lines (hi : L.JoinsCalls I J) (n : Nat) (v : Value) :
    L.Holds (I.lines n v) (J.lines n v) := by
  induction n generalizing v with
  | zero =>
    unfold Interp.lines
    grind -funext
  | succ n ih =>
    unfold Interp.lines
    grind -funext

@[grind ←]
theorem Kernel.holds_argumentLines (hi : L.JoinsCalls I J) (n : Nat) (v : Value) :
    L.Holds (Kernel.argumentLines I n v) (Kernel.argumentLines J n v) := by
  unfold Kernel.argumentLines
  grind -funext

@[grind ←]
theorem Kernel.holds_puts (hi : L.JoinsCalls I J) (n : Nat) :
    L.Holds (Kernel.puts I n args) (Kernel.puts J n args) := by
  unfold Kernel.puts
  grind -funext

@[grind ←]
theorem Kernel.holds_printed (hi : L.JoinsCalls I J) (vs : List Value) :
    L.Holds (Kernel.printed I vs) (Kernel.printed J vs) := by
  induction vs with
  | nil => exact holds_pure _
  | cons v rest ih =>
    unfold Kernel.printed
    grind -funext

@[grind ←]
theorem Kernel.holds_print (hi : L.JoinsCalls I J) :
    L.Holds (Kernel.print I args) (Kernel.print J args) := by
  unfold Kernel.print
  grind -funext

@[grind ←]
theorem Kernel.holds_display (hi : L.JoinsCalls I J) :
    L.Holds (Kernel.display I args) (Kernel.display J args) := by
  unfold Kernel.display
  grind -funext

@[grind .]
theorem Kernel.holds_random : L.Keeps (Kernel.random args) := by
  unfold Kernel.random
  grind

@[grind ←]
theorem Kernel.holds_require (hload : L.JoinsLoading I J) :
    L.Holds (Kernel.require I args) (Kernel.require J args) := by
  unfold Kernel.require
  grind -funext

@[grind .]
theorem Kernel.holds_makeProc (block : Option Callable) : L.Keeps (Kernel.makeProc args block) := by
  unfold Kernel.makeProc
  grind

@[grind ←]
theorem Kernel.holds_run (hi : L.JoinsCalls I J) {m : KernelMethod}
    (hload : m = .require → L.JoinsLoading I J) (n : Nat) :
    L.Holds (Kernel.run I n m call) (Kernel.run J n m call) := by
  unfold Kernel.run
  grind -funext

/-! ## Methods of every value -/

namespace Universal

@[grind .]
theorem holds_text : L.Keeps (text receiver) := by
  unfold text
  grind

@[grind ←]
theorem holds_variableTexts (hi : L.JoinsCalls I J) (slots : List (String × Value)) :
    L.Holds (variableTexts I slots) (variableTexts J slots) := by
  induction slots with
  | nil => exact holds_pure _
  | cons v rest ih =>
    unfold variableTexts
    grind -funext

@[grind ←]
theorem holds_inspect (hi : L.JoinsCalls I J) :
    L.Holds (inspect I receiver) (inspect J receiver) := by
  unfold inspect
  split
  · refine (holds_reading _).bind fun slots => ?_
    split
    · exact holds_text _
    · refine (holds_reading _).bind fun name => ?_
      have hparts := (holds_variableTexts hi slots.entries).bind fun parts =>
        holds_pure ("#<" ++ name ++ " " ++ commaJoined parts ++ ">")
      exact (hparts.guardInspecting _ _).bind fun s => holds_newText s
  · exact holds_text _

@[grind .]
theorem holds_respondsTo : L.Keeps (respondsTo receiver args) := by
  unfold respondsTo
  grind

@[grind ←]
theorem holds_send (hi : L.JoinsCalls I J) : L.Holds (send I call) (send J call) := by
  unfold send
  grind -funext

@[grind .]
theorem holds_variableGet : L.Keeps (variableGet receiver args) := by
  unfold variableGet
  grind

@[grind .]
theorem holds_assign (name : String) (v : Value) : L.Keeps (assign receiver name v) := by
  unfold assign
  grind

@[grind .]
theorem holds_variableSet : L.Keeps (variableSet receiver args) := by
  unfold variableSet
  grind

@[grind .]
theorem holds_variableNames : L.Keeps (variableNames receiver) := by
  unfold variableNames
  grind

@[grind ←]
theorem holds_run (hi : L.JoinsCalls I J) (m : ObjectMethod) :
    L.Holds (run I m call) (run J m call) := by
  unfold run
  grind -funext

@[grind .]
theorem holds_runNil (m : NilMethod) : L.Keeps (runNil m) := by
  unfold runNil
  grind

end Universal

/-! ## Methods of classes and modules -/

namespace Reflection

@[grind .]
theorem holds_defineReader (c : ClassRef) (name : String) : L.Keeps (defineReader c name) := by
  unfold defineReader
  grind

@[grind .]
theorem holds_defineWriter (c : ClassRef) (name : String) : L.Keeps (defineWriter c name) := by
  unfold defineWriter
  grind

@[grind .]
theorem holds_defineReaders (c : ClassRef) (names : List String) :
    L.Keeps (defineReaders c names) := by
  induction names with
  | nil => exact holds_pure _
  | cons name rest ih =>
    unfold defineReaders
    grind

@[grind .]
theorem holds_defineWriters (c : ClassRef) (names : List String) :
    L.Keeps (defineWriters c names) := by
  induction names with
  | nil => exact holds_pure _
  | cons name rest ih =>
    unfold defineWriters
    grind

@[grind .]
theorem holds_defineAccessors (c : ClassRef) (names : List String) :
    L.Keeps (defineAccessors c names) := by
  induction names with
  | nil => exact holds_pure _
  | cons name rest ih =>
    unfold defineAccessors
    grind

@[grind .]
theorem holds_instanceMethods (c : ClassRef) : L.Keeps (instanceMethods c args) := by
  unfold instanceMethods instanceMethods.list
  grind

@[grind .]
theorem holds_methodDefined (c : ClassRef) : L.Keeps (methodDefined c args) := by
  unfold methodDefined
  grind

@[grind .]
theorem holds_constantOf (scope : Value) (name : String) : L.Keeps (constantOf scope name) := by
  unfold constantOf
  grind

@[grind .]
theorem holds_followPath (from_ : Value) (path : List String) :
    L.Keeps (followPath from_ path) := by
  induction path generalizing from_ with
  | nil => exact holds_pure _
  | cons name rest ih =>
    unfold followPath
    grind

@[grind .]
theorem holds_constantGet (c : ClassRef) : L.Keeps (constantGet c args) := by
  unfold constantGet
  grind

@[grind .]
theorem holds_run (m : ModuleMethod) : L.Keeps (run m call) := by
  unfold run
  grind

end Reflection

/-! ## Making instances -/

namespace Creation

@[grind ←]
theorem holds_itemsFrom (hi : L.JoinsCalls I J) (block : Callable) (count : Nat) (i : Int) :
    L.Holds (itemsFrom I receiver block count i) (itemsFrom J receiver block count i) := by
  induction count generalizing i with
  | zero => exact holds_pure _
  | succ count ih =>
    unfold itemsFrom
    grind -funext

@[grind ←]
theorem holds_filledArray (hi : L.JoinsCalls I J) (size : Int64) (fill : Value) :
    L.Holds (filledArray I call size fill) (filledArray J call size fill) := by
  unfold filledArray
  grind -funext

@[grind ←]
theorem holds_newArray (hi : L.JoinsCalls I J) : L.Holds (newArray I call) (newArray J call) := by
  unfold newArray newArray.itemsOr
  grind -funext

@[grind .]
theorem holds_newString : L.Keeps (newString args) := by
  unfold newString
  grind

@[grind .]
theorem holds_newHash : L.Keeps (newHash args) := by
  unfold newHash
  grind

@[grind .]
theorem holds_rangeBetween (low high : Value) (exclusive : Bool) :
    L.Keeps (rangeBetween low high exclusive) := by
  unfold rangeBetween
  grind

@[grind .]
theorem holds_newRange : L.Keeps (newRange args) := by
  unfold newRange
  grind

@[grind ←]
theorem holds_newObject (hi : L.JoinsCalls I J) (c : ClassRef) :
    L.Holds (newObject I c call) (newObject J c call) := by
  unfold newObject
  grind -funext

@[grind .]
theorem holds_wrapped (c : ClassRef) (v : Value) : L.Keeps (wrapped c v) := by
  unfold wrapped
  grind

@[grind ←]
theorem holds_create (hi : L.JoinsCalls I J) (c : ClassRef) :
    L.Holds (create I c call) (create J c call) := by
  unfold create
  grind -funext

@[grind ←]
theorem holds_run (hi : L.JoinsCalls I J) (m : ClassMethod) :
    L.Holds (run I m call) (run J m call) := by
  unfold run
  grind -funext

end Creation

/-! ## Methods of numbers -/

namespace Arithmetic

@[grind ←]
theorem holds_operate {onInts onInts' : Int64 → Int64 → Run Value}
    (hints : ∀ a b, L.Holds (onInts a b) (onInts' a b)) (x y : Value)
    (onFloats : Float → Float → Float) :
    L.Holds (operate x y onInts onFloats) (operate x y onInts' onFloats) := by
  unfold operate
  grind -funext

@[grind .]
theorem holds_divideInts (x y : Int64) : L.Keeps (divideInts x y) := by
  unfold divideInts
  grind

@[grind .]
theorem holds_moduloInts (x y : Int64) : L.Keeps (moduloInts x y) := by
  unfold moduloInts
  grind

@[grind .]
theorem holds_powerInts (x y : Int64) : L.Keeps (powerInts x y) := by
  unfold powerInts
  grind

@[grind .]
theorem holds_comparison (x : Value) (test : Ordering → Bool) :
    L.Keeps (comparison x args test) := by
  unfold comparison
  grind

@[grind .]
theorem holds_negate (v : Value) : L.Keeps (negate v) := by
  unfold negate
  grind

@[grind .]
theorem holds_absolute (v : Value) : L.Keeps (absolute v) := by
  unfold absolute
  grind

@[grind .]
theorem holds_integerText (x : Int64) : L.Keeps (integerText x args) := by
  unfold integerText
  grind

@[grind ←]
theorem holds_loop (hi : L.JoinsCalls I J) (block : Callable) (step : Int) (count : Nat)
    (start : Int) :
    L.Holds (loop I receiver block step count start) (loop J receiver block step count start) := by
  have hstep : ∀ (_ : Unit) i, L.Holds (do let _ ← I.yieldTo block receiver [.int i])
      (do let _ ← J.yieldTo block receiver [.int i]) := by
    grind -funext
  exact (holds_foldInts hstep step count start ()).bind fun _ => holds_pure receiver

@[grind ←]
theorem holds_times (hi : L.JoinsCalls I J) : L.Holds (times I call) (times J call) := by
  unfold times
  grind -funext

@[grind ←]
theorem holds_upTo (hi : L.JoinsCalls I J) : L.Holds (upTo I call) (upTo J call) := by
  unfold upTo
  grind -funext

@[grind ←]
theorem holds_downTo (hi : L.JoinsCalls I J) : L.Holds (downTo I call) (downTo J call) := by
  unfold downTo
  grind -funext

@[grind .]
theorem holds_wholeInt (x : Float) : L.Keeps (wholeInt x) := by
  unfold wholeInt
  grind

@[grind .]
theorem holds_roundTo (x : Float) (places : Int64) : L.Keeps (roundTo x places) := by
  unfold roundTo
  grind

@[grind .]
theorem holds_round (x : Float) : L.Keeps (round x args) := by
  unfold round
  grind

@[grind .]
theorem holds_run (m : NumericMethod) : L.Keeps (run m call) := by
  unfold run
  grind

@[grind ←]
theorem holds_runInteger (hi : L.JoinsCalls I J) (m : IntegerMethod) :
    L.Holds (runInteger I m call) (runInteger J m call) := by
  unfold runInteger
  grind -funext

@[grind .]
theorem holds_runFloat (m : FloatMethod) : L.Keeps (runFloat m call) := by
  unfold runFloat
  grind

end Arithmetic

/-! ## Methods of strings and symbols -/

namespace Texts

@[grind .]
theorem holds_compare? (s : String) : L.Keeps (compare? s args) := by
  unfold compare?
  grind

@[grind .]
theorem holds_comparison (s : String) (test : Ordering → Bool) :
    L.Keeps (comparison s args test) := by
  unfold comparison
  grind

@[grind .]
theorem holds_times (s : String) : L.Keeps (times s args) := by
  unfold times
  grind

@[grind .]
theorem holds_anyText (test : List Char → Bool) : L.Keeps (anyText test args) := by
  induction args with
  | nil => exact holds_pure _
  | cons v rest ih =>
    unfold anyText
    grind

@[grind .]
theorem holds_substring (cs : List Char) (bounds : Option (Nat × Nat)) :
    L.Keeps (substring cs bounds) := by
  unfold substring
  grind

@[grind .]
theorem holds_index (cs : List Char) : L.Keeps (index cs args) := by
  unfold index index.part
  grind

@[grind .]
theorem holds_append : L.Keeps (append receiver args) := by
  unfold append
  grind

@[grind .]
theorem holds_newTextArray (texts : List (List Char)) : L.Keeps (newTextArray texts) := by
  unfold newTextArray
  grind

@[grind .]
theorem holds_split (cs : List Char) : L.Keeps (split cs args) := by
  unfold split
  grind

@[grind .]
theorem holds_run (m : StringMethod) : L.Keeps (run m call) := by
  unfold run
  grind

@[grind .]
theorem holds_compareSymbols (name : String) : L.Keeps (compareSymbols name args) := by
  unfold compareSymbols
  grind

@[grind .]
theorem holds_runSymbol (m : SymbolMethod) : L.Keeps (runSymbol m call) := by
  unfold runSymbol
  grind

end Texts

/-! ## Methods of arrays -/

namespace Lists

@[grind .]
theorem holds_stretch (items : Array Value) (bounds : Option (Nat × Nat)) :
    L.Keeps (stretch items bounds) := by
  unfold stretch
  grind

@[grind .]
theorem holds_index (items : Array Value) : L.Keeps (index items args) := by
  unfold index
  grind

@[grind .]
theorem holds_storeAt (r : ListRef) (i : Int64) (v : Value) : L.Keeps (storeAt r i v) := by
  unfold storeAt
  grind

@[grind .]
theorem holds_store (r : ListRef) : L.Keeps (store r args) := by
  unfold store
  grind

@[grind .]
theorem holds_pushOne : L.Keeps (pushOne receiver args) := by
  unfold pushOne
  grind

@[grind .]
theorem holds_push : L.Keeps (push receiver args) := by
  unfold push
  grind

@[grind .]
theorem holds_pop (r : ListRef) : L.Keeps (pop r) := by
  unfold pop
  grind

@[grind .]
theorem holds_needCount (v : Value) : L.Keeps (needCount v) := by
  unfold needCount
  grind

@[grind .]
theorem holds_first (items : Array Value) : L.Keeps (first items args) := by
  unfold first
  grind

@[grind .]
theorem holds_last (items : Array Value) : L.Keeps (last items args) := by
  unfold last
  grind

@[grind .]
theorem holds_concat : L.Keeps (concat receiver args) := by
  unfold concat
  grind

@[grind ←]
theorem holds_gather (hi : L.JoinsCalls I J) (r : ListRef) (block : Callable)
    (args : Nat → Value → List Value) (f : σ → Value → Value → σ) (n i : Nat) (acc : σ) :
    L.Holds (gather I receiver r block args f n i acc) (gather J receiver r block args f n i acc) :=
      by
  induction n generalizing i acc with
  | zero => exact holds_outOfFuel
  | succ n ih =>
    unfold gather
    grind -funext

@[grind ←]
theorem holds_overItems (hi : L.JoinsCalls I J) (n : Nat) (f : σ → Value → Value → σ) (start : σ) :
    L.Holds (overItems I n call f start) (overItems J n call f start) := by
  unfold overItems
  grind -funext

@[grind ←]
theorem holds_each (hi : L.JoinsCalls I J) (n : Nat) : L.Holds (each I n call) (each J n call) := by
  unfold each
  grind -funext

@[grind ←]
theorem holds_eachWithIndex (hi : L.JoinsCalls I J) (n : Nat) :
    L.Holds (eachWithIndex I n call) (eachWithIndex J n call) := by
  unfold eachWithIndex
  grind -funext

@[grind ←]
theorem holds_map (hi : L.JoinsCalls I J) (n : Nat) : L.Holds (map I n call) (map J n call) := by
  unfold map
  grind -funext

@[grind ←]
theorem holds_filter (hi : L.JoinsCalls I J) (wanted : Bool) (n : Nat) :
    L.Holds (filter wanted I n call) (filter wanted J n call) := by
  unfold filter
  grind -funext

@[grind ←]
theorem holds_fold {f g : Value → Value → Run Value} (hf : ∀ acc v, L.Holds (f acc v) (g acc v))
    (acc : Value) (items : List Value) : L.Holds (fold f acc items) (fold g acc items) := by
  induction items generalizing acc with
  | nil => exact holds_pure _
  | cons v rest ih =>
    unfold fold
    grind -funext

@[grind ←]
theorem holds_foldFrom {f g : Value → Value → Run Value} (hf : ∀ acc v, L.Holds (f acc v) (g acc v))
    (start : Option Value) (items : List Value) :
    L.Holds (foldFrom f start items) (foldFrom g start items) := by
  unfold foldFrom
  grind -funext

@[grind ←]
theorem holds_reduce (hi : L.JoinsCalls I J) (items : List Value) :
    L.Holds (reduce I items call) (reduce J items call) := by
  unfold reduce
  grind -funext

@[grind ←]
theorem holds_sum (hi : L.JoinsCalls I J) (items : List Value) :
    L.Holds (sum I items call) (sum J items call) := by
  unfold sum
  dsimp only
  split
  · exact holds_fold (fun acc item => by grind -funext) _ items
  · exact holds_fold (fun acc item => by grind -funext) _ items
  · exact holds_wrongCount _ _ _

@[grind ←]
theorem holds_merge {order order' : Value → Value → Run Ordering}
    (ho : ∀ v w, L.Holds (order v w) (order' v w)) (xs ys : List Value) :
    L.Holds (merge order xs ys) (merge order' xs ys) := by
  fun_induction merge order xs ys with
  | case1 ys =>
    rw [merge]
    exact holds_pure _
  | case2 xs hne =>
    rw [merge.eq_2 order' xs hne]
    exact holds_pure _
  | case3 x xs y ys ihLeft ihRight =>
    rw [merge]
    grind -funext

@[grind ←]
theorem holds_sorted {order order' : Value → Value → Run Ordering}
    (ho : ∀ v w, L.Holds (order v w) (order' v w)) (items : List Value) :
    L.Holds (sorted order items) (sorted order' items) := by
  fun_induction sorted order items with
  | case1 items hshort =>
    rw [sorted, if_pos hshort]
    exact holds_pure _
  | case2 items hlong half ihLeft ihRight =>
    rw [sorted.eq_1 order' items, if_neg hlong]
    exact ihLeft.bind fun left => ihRight.bind fun right => holds_merge ho left right

@[grind ←]
theorem holds_extreme (hi : L.JoinsCalls I J) (wanted : Ordering) (best : Option Value)
    (items : List Value) : L.Holds (extreme I wanted best items) (extreme J wanted best items) := by
  induction items generalizing best with
  | nil => exact holds_pure _
  | cons v rest ih =>
    unfold extreme
    grind -funext

@[grind ←]
theorem holds_includes (hi : L.JoinsCalls I J) (needle : Value) (items : List Value) :
    L.Holds (includes I needle items) (includes J needle items) := by
  induction items with
  | nil => exact holds_pure _
  | cons v rest ih =>
    unfold includes
    grind -funext

@[grind ←]
theorem holds_joined_texts (hi : L.JoinsCalls I J) {nested nested' : ListRef → Run String}
    (hn : ∀ r, L.Holds (nested r) (nested' r)) (items : List Value) :
    L.Holds (joined.texts I nested items) (joined.texts J nested' items) := by
  induction items with
  | nil => exact holds_pure _
  | cons v rest ih =>
    unfold joined.texts
    grind -funext

@[grind ←]
theorem holds_joined (hi : L.JoinsCalls I J) (sep : String) (n : Nat) (r : ListRef) :
    L.Holds (joined I sep n r) (joined J sep n r) := by
  induction n generalizing r with
  | zero => exact holds_outOfFuel
  | succ n ih =>
    unfold joined
    grind -funext

@[grind ←]
theorem holds_join (hi : L.JoinsCalls I J) (n : Nat) (r : ListRef) :
    L.Holds (join I n r args) (join J n r args) := by
  unfold join
  grind -funext

@[grind ←]
theorem holds_inspect (hi : L.JoinsCalls I J) (r : ListRef) :
    L.Holds (inspect I r) (inspect J r) := by
  unfold inspect
  grind -funext

@[grind ←]
theorem holds_allEqual (hi : L.JoinsCalls I J) (pairs : List (Value × Value)) :
    L.Holds (allEqual I pairs) (allEqual J pairs) := by
  induction pairs with
  | nil => exact holds_pure _
  | cons pair rest ih =>
    unfold allEqual
    grind -funext

@[grind ←]
theorem holds_equals (hi : L.JoinsCalls I J) (r : ListRef) :
    L.Holds (equals I r args) (equals J r args) := by
  unfold equals
  refine (holds_single args).bind fun other => (holds_reading _).bind fun found => ?_
  split
  · exact holds_pure _
  · split
    · exact holds_pure _
    · refine (holds_reading _).bind fun xs => (holds_reading _).bind fun ys => ?_
      split
      · exact holds_pure _
      · exact ((holds_allEqual hi _).guardComparing _).bind fun b => holds_pure _

@[grind ←]
theorem holds_run (hi : L.JoinsCalls I J) (n : Nat) (m : ArrayMethod) :
    L.Holds (run I n m call) (run J n m call) := by
  unfold run
  grind -funext

end Lists

/-! ## Methods of hashes -/

namespace Tables

@[grind .]
theorem holds_put (r : TableRef) (key value : Value) : L.Keeps (put r key value) := by
  unfold put
  grind

@[grind .]
theorem holds_store : L.Keeps (store receiver args) := by
  unfold store
  grind

@[grind .]
theorem holds_delete : L.Keeps (delete receiver args) := by
  unfold delete
  grind

@[grind ←]
theorem holds_overPairs (hi : L.JoinsCalls I J) (block : Callable) (pairs : List (Value × Value)) :
    L.Holds (overPairs I receiver block pairs) (overPairs J receiver block pairs) := by
  induction pairs with
  | nil => exact holds_pure _
  | cons pair rest ih =>
    unfold overPairs
    grind -funext

@[grind ←]
theorem holds_answers (hi : L.JoinsCalls I J) : L.Holds (answers I call) (answers J call) := by
  unfold answers
  grind -funext

@[grind .]
theorem holds_pairArrays (pairs : List (Value × Value)) : L.Keeps (pairArrays pairs) := by
  induction pairs with
  | nil => exact holds_pure _
  | cons pair rest ih =>
    unfold pairArrays
    grind

@[grind .]
theorem holds_merge : L.Keeps (merge receiver args) := by
  unfold merge
  grind

@[grind ←]
theorem holds_pairTexts (hi : L.JoinsCalls I J) (pairs : List (Value × Value)) :
    L.Holds (pairTexts I pairs) (pairTexts J pairs) := by
  induction pairs with
  | nil => exact holds_pure _
  | cons pair rest ih =>
    unfold pairTexts
    grind -funext

@[grind ←]
theorem holds_inspect (hi : L.JoinsCalls I J) (r : TableRef) :
    L.Holds (inspect I r) (inspect J r) := by
  unfold inspect
  grind -funext

@[grind ←]
theorem holds_allEqual (hi : L.JoinsCalls I J) (other : TableRef) (pairs : List (Value × Value)) :
    L.Holds (allEqual I other pairs) (allEqual J other pairs) := by
  induction pairs with
  | nil => exact holds_pure _
  | cons pair rest ih =>
    unfold allEqual
    grind -funext

@[grind ←]
theorem holds_equals (hi : L.JoinsCalls I J) (r : TableRef) :
    L.Holds (equals I r args) (equals J r args) := by
  unfold equals
  refine (holds_single args).bind fun other => (holds_reading _).bind fun found => ?_
  split
  · exact holds_pure _
  · next s =>
    split
    · exact holds_pure _
    · refine (holds_reading _).bind fun ours => (holds_reading _).bind fun theirs => ?_
      split
      · exact holds_pure _
      · exact ((holds_allEqual hi s _).guardComparing _).bind fun b => holds_pure _

@[grind .]
theorem holds_needEntries (v : Value) : L.Keeps (needEntries v) := by
  unfold needEntries
  grind

@[grind ←]
theorem holds_run (hi : L.JoinsCalls I J) (m : HashMethod) :
    L.Holds (run I m call) (run J m call) := by
  unfold run
  grind -funext

end Tables

/-! ## Methods of ranges and procs -/

namespace Ranges

@[grind ←]
theorem holds_foldItems {f g : σ → Int64 → Run σ} (hf : ∀ acc i, L.Holds (f acc i) (g acc i))
    (low high : Int64) (start : σ) :
    L.Holds (foldItems low high f start) (foldItems low high g start) := by
  exact holds_foldInts hf _ _ _ _

@[grind ←]
theorem holds_each (hi : L.JoinsCalls I J) : L.Holds (each I call) (each J call) := by
  have hstep : ∀ block (_ : Unit) i,
      L.Holds (do let _ ← I.yieldTo block call.receiver [.int i])
        (do let _ ← J.yieldTo block call.receiver [.int i]) := by
    grind -funext
  unfold each
  refine (holds_needBlock _).bind fun block => (holds_needRange _).bind fun (low, high) => ?_
  exact (holds_foldItems (hstep block) low high ()).bind fun _ => holds_pure _

@[grind ←]
theorem holds_map (hi : L.JoinsCalls I J) : L.Holds (map I call) (map J call) := by
  have hstep : ∀ block (acc : Array Value) i, L.Holds (do
      return acc.push (← I.yieldTo block call.receiver [.int i])) (do
      return acc.push (← J.yieldTo block call.receiver [.int i])) := by grind -funext
  unfold map
  refine (holds_needBlock _).bind fun block => (holds_needRange _).bind fun (low, high) => ?_
  exact (holds_foldItems (hstep block) low high #[]).bind fun items => holds_newArray items

@[grind ←]
theorem holds_select (hi : L.JoinsCalls I J) : L.Holds (select I call) (select J call) := by
  have hstep : ∀ block (acc : Array Value) i, L.Holds (do
      if (← I.yieldTo block call.receiver [.int i]).truthy then return acc.push (.int i)
      else return acc) (do
      if (← J.yieldTo block call.receiver [.int i]).truthy then return acc.push (.int i)
      else return acc) := by grind -funext
  unfold select
  refine (holds_needBlock _).bind fun block => (holds_needRange _).bind fun (low, high) => ?_
  exact (holds_foldItems (hstep block) low high #[]).bind fun items => holds_newArray items

@[grind ←]
theorem holds_sum (hi : L.JoinsCalls I J) : L.Holds (sum I call) (sum J call) := by
  unfold sum
  grind -funext

@[grind .]
theorem holds_newInts (low : Int64) (count : Nat) : L.Keeps (newInts low count) := by
  unfold newInts
  grind

@[grind .]
theorem holds_first (low high : Int64) : L.Keeps (first low high args) := by
  unfold first
  grind

@[grind .]
theorem holds_last (low high : Int64) : L.Keeps (last low high args) := by
  unfold last
  grind

@[grind ←]
theorem holds_run (hi : L.JoinsCalls I J) (m : RangeMethod) :
    L.Holds (run I m call) (run J m call) := by
  unfold run
  grind -funext

@[grind ←]
theorem holds_runProc (hi : L.JoinsCalls I J) (m : ProcMethod) :
    L.Holds (runProc I m call) (runProc J m call) := by
  unfold runProc
  grind -funext

end Ranges

end Spinel
