import Marginalia.Text.Blank
import Marginalia.Text.Decimal

/-!
# Indentation

The depth of a row is the number of whole levels that its leading spaces and
tabs fill. A level is so many columns wide, a space is one column and a tab a
full level. A width of zero counts as one. The columns are counted in a 64-bit
word, which tabs can fill if a level is wide enough; it starts again at zero then.

* `Text.columns` : the columns of the leading spaces and tabs.
* `Text.depth`   : the depth of a row.
-/

namespace Marginalia

/-- The columns of a level, unless others are asked for. -/
def defaultLevelWidth : Nat := 4

namespace Text

/-- The columns that the leading spaces and tabs of a row fill, a tab being
`level` columns wide, as a 64-bit word counts them. -/
def columns (level : Nat) : Text → Nat
  | [] => 0
  | c :: rest =>
    if c = ' ' then (1 + columns level rest) % sizeLimit
    else if c = '\t' then (level + columns level rest) % sizeLimit
    else 0

/-- The number of whole levels that the leading spaces and tabs of a row fill. -/
def depth (levelWidth : Nat) (t : Text) : Nat :=
  columns (max 1 levelWidth) t / max 1 levelWidth

end Text

end Marginalia
