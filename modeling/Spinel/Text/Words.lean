import Spinel.Text.Blank

/-!
# Parts of texts

Trimming, cutting into words and cutting at a separator, on lists of characters.
-/

namespace Spinel.Text

def isBlank (c : Char) : Bool := CharSet.blank.contains c

/-- Leave out the blanks in front. -/
def trimStart (cs : List Char) : List Char := cs.dropWhile isBlank

/-- Leave out the blanks at both ends. -/
def trim (cs : List Char) : List Char := (trimStart (trimStart cs).reverse).reverse

/-- Close the word that `acc` holds backwards, unless it is empty. -/
def closeWord (acc : List Char) (rest : List (List Char)) : List (List Char) :=
  if acc.isEmpty then rest else acc.reverse :: rest

/-- The words of a text, where `acc` is the open word backwards. -/
def wordsFrom (acc : List Char) : List Char → List (List Char)
  | [] => closeWord acc []
  | c :: cs => if isBlank c then closeWord acc (wordsFrom [] cs) else wordsFrom (c :: acc) cs

/-- The longest stretches without blanks. -/
def words (cs : List Char) : List (List Char) := wordsFrom [] cs

/-- The pieces between occurrences of `sep`. The first `skip` characters belong to an occurrence
that was met before, and `acc` is the open piece backwards. -/
def piecesFrom (sep : List Char) : (skip : Nat) → (acc : List Char) → List Char → List (List Char)
  | _, acc, [] => [acc.reverse]
  | k + 1, acc, _ :: cs => piecesFrom sep k acc cs
  | 0, acc, c :: cs =>
    if sep.isPrefixOf (c :: cs) then acc.reverse :: piecesFrom sep (sep.length - 1) [] cs
    else piecesFrom sep 0 (c :: acc) cs

/-- The pieces between the leftmost occurrences of `sep` that do not overlap. -/
def pieces (sep cs : List Char) : List (List Char) := piecesFrom sep 0 [] cs

/-- Leave out empty pieces at the end. -/
def dropEmptyEnd (parts : List (List Char)) : List (List Char) :=
  (parts.reverse.dropWhile List.isEmpty).reverse

/-- Whether `needle` occurs in a text. -/
def occursIn (needle : List Char) : List Char → Bool
  | [] => needle.isEmpty
  | c :: cs => needle.isPrefixOf (c :: cs) || occursIn needle cs

/-- Whether a text ends with another. -/
def endsWith (ending cs : List Char) : Bool := ending.reverse.isPrefixOf cs.reverse

end Spinel.Text
