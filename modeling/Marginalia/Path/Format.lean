import Marginalia.Path.Basic
import Marginalia.Text.Decimal

/-!
# Paths as text

A path is written as its steps with a dot between them, a key as it stands and a
position in decimal. In reading, a part of digits that a position can hold is a
position and any other part is a key, so the empty text is the root and a sign
makes a key of a number.

* `Path.toText`, `Path.ofText` : writing and reading.
* `Step.ofText_toText_item`    : a position is read back as it was written.
-/

namespace Marginalia

/-- The character between the steps of a written path. -/
def stepDot : Char := '.'

namespace Step

def toText : Step → Text
  | .key name => name
  | .item n => decimal n

/-- The step that a part of a path text stands for. -/
def ofText (part : Text) : Step :=
  match readDecimal? part with
  | some n => .item n
  | none => .key part

theorem ofText_toText_item {n : Nat} (h : n < sizeLimit) : ofText (toText (.item n)) = .item n := by
  simp [ofText, toText, readDecimal?_decimal h]

end Step

namespace Path

def toText (p : Path) : Text :=
  [stepDot].intercalate (p.steps.map Step.toText)

def ofText (t : Text) : Path :=
  if t.isEmpty then root else ⟨(t.splitOn stepDot).map Step.ofText⟩

end Path

end Marginalia
