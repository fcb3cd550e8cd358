import Spinel.Text.CaseTable
import Spinel.Text.Cased

/-!
# Upper and lower case

Case mapping of whole texts. A character may become several. A capital sigma that ends a word has a
lower case of its own, the only mapping that depends on the neighbours.
-/

namespace Spinel.Text

/-- Whether a run maps a code point. -/
def inRun (n : Nat) (r : CaseRun) : Bool :=
  r.first ≤ n && n ≤ r.last && (n - r.first) % r.stride = 0

/-- The mapping of one character: a long one, that of its run, or the character itself. -/
def mapped (long : List (Nat × List Nat)) (runs : List CaseRun) (c : Char) : List Char :=
  match long.find? (·.1 = c.toNat) with
  | some (_, codes) => codes.map Char.ofNat
  | none =>
    match runs.find? (inRun c.toNat) with
    | some r => [Char.ofNat ((c.toNat : Int) + r.shift).toNat]
    | none => [c]

def upperChar : Char → List Char := mapped CaseTable.upperLong CaseTable.upperRuns

def lowerChar : Char → List Char := mapped CaseTable.lowerLong CaseTable.lowerRuns

def upper (cs : List Char) : List Char := cs.flatMap upperChar

/-- Whether a cased character comes first, but for ignorable ones. -/
def meetsCased (cs : List Char) : Bool :=
  match cs.dropWhile CharSet.caseIgnorable.contains with
  | c :: _ => CharSet.cased.contains c
  | [] => false

/-- The lower case of capital sigma between what stands before it, backwards, and behind it. -/
def lowerSigma (before after : List Char) : Char :=
  if meetsCased before && !meetsCased after then 'ς' else 'σ'

/-- Lower case, behind the characters `before`, which are backwards. -/
def lowerAfter (before : List Char) : List Char → List Char
  | [] => []
  | c :: cs =>
    (if c = 'Σ' then [lowerSigma before cs] else lowerChar c) ++ lowerAfter (c :: before) cs

def lower (cs : List Char) : List Char := lowerAfter [] cs

/-- The first character in upper case, and the others in lower case as a text of their own. -/
def capitalized : List Char → List Char
  | [] => []
  | c :: cs => upperChar c ++ lower cs

end Spinel.Text
