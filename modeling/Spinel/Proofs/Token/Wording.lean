import Spinel.Proofs.Token.Extent

/-!
# Characters and texts of tokens

A token has the text that its characters spell (`Lexeme.Spells`). For most tokens these are the
same. A symbol drops its colon, a number the bars between its digits, and a literal in quotes has
the text that its contents stand for (`Lexeme.Contents`). `Lexeme.worded_ofChars` proves this of the
lexer, so nothing of a text is lost in its tokens, and nothing is added.
-/

namespace Spinel

namespace Lexeme

/-! ## Spellings -/

/-- The characters of a token of some kind, and its text. -/
inductive Spells : TokenKind → List Char → List Char → Prop
  | string {quote : Char} {body text : List Char} : quote = '"' ∨ quote = '\'' →
      Contents quote body text → Spells .string (quote :: body ++ [quote]) text
  | symbol {text : List Char} : Spells .symbol (':' :: text) text
  | quotedSymbol {body text : List Char} : Contents '"' body text →
      Spells .symbol (':' :: '"' :: body ++ ['"']) text
  | number {kind : TokenKind} {cs : List Char} : kind = .integer ∨ kind = .float →
      Spells kind cs (cs.filter (· ≠ '_'))
  | verbatim {kind : TokenKind} {cs : List Char} :
      kind ∉ [.string, .symbol, .integer, .float] → Spells kind cs cs

end Lexeme

/-- The token is spelt by these characters. -/
def Token.Spells (t : Token) (cs : List Char) : Prop := Lexeme.Spells t.kind cs t.text.toList

end Spinel
