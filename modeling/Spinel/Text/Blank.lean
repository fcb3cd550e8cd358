import Spinel.Text.CharSet

/-!
# White space

The characters that separate words.
-/

namespace Spinel.CharSet

/-- The characters with the property White_Space. -/
def blank : CharSet :=
  ⟨[
    9, 5, 18, 1, 100, 1, 26, 1, 5599, 1, 2431, 11, 29, 2, 5, 1, 47, 1, 4000, 1]⟩

end Spinel.CharSet
