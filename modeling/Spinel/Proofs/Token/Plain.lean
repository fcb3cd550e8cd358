import Spinel.Proofs.Tree
import Spinel.Token.Lexer

/-!
# Plain tokens

A constant is spelt without colons, so the lexer takes only tokens off the text that are plain
(`Token.Plain`, `Lexer.plain_of_next`).
-/

namespace Spinel

/-- Read as a constant, the name is plain. -/
def Reading.Plain : Reading → Prop
  | .token kind text => kind = .constant → IsPlainName text
  | .malformed _ _ => True

/-- The name is plain if the token is a constant. -/
def Token.Plain (t : Token) : Prop := t.kind = .constant → IsPlainName t.text

namespace Lexeme

theorem reading_token {kind : TokenKind} {text : String} (h : kind ≠ .constant) :
    (Reading.token kind text).Plain :=
  fun hkind => absurd hkind h

theorem reading_string {kind : TokenKind} (h : kind ≠ .constant) (quote : Char) (opening : Nat)
    (body : List Char) : (string kind quote opening body).reading.Plain := by
  unfold string
  split
  · exact reading_token h
  · trivial

theorem reading_number (cs : List Char) : (number cs).reading.Plain := by
  unfold number
  dsimp only
  repeat' split
  all_goals first | trivial | exact reading_token nofun

theorem reading_sigiled (first : Char) (rest : List Char) : (sigiled first rest).reading.Plain := by
  unfold sigiled
  dsimp only
  repeat' split
  all_goals first | trivial | exact reading_token nofun

theorem reading_symbol (cs : List Char) : (symbol cs).reading.Plain := by
  unfold symbol
  split
  · trivial
  · exact reading_token nofun
  · exact reading_string (by decide) _ _ _
  · dsimp only
    repeat' split
    all_goals first | trivial | exact reading_token nofun

/-- Names have no colons in them. -/
theorem colon_notMem_identifier (cs : List Char) : ':' ∉ identifier cs := by
  have hname : ':' ∉ cs.takeWhile isNameChar := fun hmem =>
    absurd (List.all_eq_true.1 List.all_takeWhile _ hmem) (by decide)
  unfold identifier
  dsimp only
  split
  · exact hname
  · next mark _ _ =>
    split
    · next hmark =>
      rw [List.mem_append, List.mem_singleton]
      rintro (hmem | rfl)
      · exact hname hmem
      · exact absurd hmark.1 (by decide)
    · exact hname

theorem reading_ofChars (c : Char) (rest : List Char) : (ofChars c rest).reading.Plain := by
  unfold ofChars
  dsimp only
  split
  · exact reading_token nofun
  · split
    · exact reading_string (by decide) _ _ _
    · split
      · exact reading_symbol rest
      · split
        · exact reading_sigiled c rest
        · split
          · exact reading_number _
          · split
            · intro _
              unfold IsPlainName
              rw [String.toList_ofList]
              exact colon_notMem_identifier _
            · repeat' split
              all_goals first | trivial | exact reading_token nofun

end Lexeme

namespace Lexer

theorem plain_of_scan {spaced : Bool} {s s' : Stream} {t : Token}
    (h : scan spaced s = (.ok (some t), s')) : t.Plain := by
  unfold scan at h
  split at h
  · cases h
  · next c cs _ =>
    have hplain := Lexeme.reading_ofChars c cs
    dsimp only at h
    split at h
    · next kind text hreading =>
      rw [hreading] at hplain
      cases h
      exact hplain
    · cases h
    · cases h

/-- The lexer takes plain tokens off the text. -/
theorem plain_of_next {l l' : Lexer} {t : Token} (hp : l.pushed = [])
    (h : l.next = (.ok (some t), l')) : t.Plain := by
  unfold next at h
  rw [hp] at h
  exact plain_of_scan (Prod.ext (Prod.mk.inj h).1 rfl)

end Lexer

end Spinel
