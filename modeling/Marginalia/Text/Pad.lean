import Marginalia.Text.Basic

/-!
# Padding

A text is shown in a field of a least width, and may first be cut to a greatest
length. Lengths count characters.

* `Field.fit` : the text as a field shows it.
-/

namespace Marginalia

/-- Where a text stands in a field that is wider than it. -/
inductive Alignment
  | left
  | right
  | centre
  deriving DecidableEq, Repr

/-- A field: its least width, the greatest length of a text in it if there is
one, and how the rest of the width is filled. -/
structure Field where
  width : Nat
  limit? : Option Nat := none
  alignment : Alignment := .left
  fill : Char := ' '
  deriving DecidableEq, Repr

namespace Field

/-- The text cut to the field's greatest length. -/
def cut (field : Field) (t : Text) : Text :=
  match field.limit? with
  | none => t
  | some limit => t.take limit

/-- How many of `spare` filling characters stand before the text. In the centre,
the odd one of them stands after it. -/
def before (field : Field) (spare : Nat) : Nat :=
  match field.alignment with
  | .left => 0
  | .right => spare
  | .centre => spare / 2

/-- The text as the field shows it. -/
def fit (field : Field) (t : Text) : Text :=
  let shown := field.cut t
  let spare := field.width - shown.length
  List.replicate (field.before spare) field.fill ++ shown
    ++ List.replicate (spare - field.before spare) field.fill

end Field

end Marginalia
