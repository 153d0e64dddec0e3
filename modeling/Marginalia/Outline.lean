import Marginalia.Row.Basic

/-!
# The outline of a document

The rows with data form an outline by their depths alone. The parent of a row is
the nearest row above it that is strictly shallower, and the row's path is its
parent's path and one step more: the row's key, or for an item of a sequence its
position, which counts the items of exactly its depth between its parent and
itself. Rows without data have no part in it.

The rows above a row are listed nearest first, so that the search for a parent
goes down the list and the rows above the parent are what is left of it.

* `OutlineRow.path` : the path of a row below given rows.
* `Outline.paths`   : the paths of the rows of a document, `none` for a row that has no path.
-/

namespace Marginalia

/-- What the outline needs of a row with data: its depth and, unless it is an
item, its key. -/
structure OutlineRow where
  depth : Nat
  key? : Option Text
  deriving DecidableEq, Repr

namespace OutlineRow

def isItem (row : OutlineRow) : Bool :=
  row.key?.isNone

/-- The part of a line in the outline. -/
def ofLine (levelWidth : Nat) (line : Line) : OutlineRow where
  depth := line.depth levelWidth
  key? := if line.isItem then none else some line.key

/-- The part of a row with this text in the outline, if the row has data. -/
def ofText? (levelWidth : Nat) (text : Text) : Option OutlineRow :=
  (Row.read 0 text).dataLine?.map (ofLine levelWidth)

/-- The number of items at exactly this depth among the rows above, down from
the nearest one that is shallower. -/
def position (depth : Nat) (above : List OutlineRow) : Nat :=
  (above.takeWhile fun row => depth ≤ row.depth).countP fun row => row.depth == depth && row.isItem

/-- The last step of the path of a row below `above`. -/
def step (row : OutlineRow) (above : List OutlineRow) : Step :=
  match row.key? with
  | some name => .key name
  | none => .item (position row.depth above)

/-- The path of the parent of a row at this depth below `above`: that of the
nearest shallower row, or the root if there is none. -/
def parentPath (depth : Nat) : List OutlineRow → Path
  | [] => .root
  | row :: above =>
    if row.depth < depth then (parentPath row.depth above).child (row.step above)
    else parentPath depth above

/-- The path of a row below `above`. -/
def path (row : OutlineRow) (above : List OutlineRow) : Path :=
  (parentPath row.depth above).child (row.step above)

theorem parentPath_cons_of_lt {depth : Nat} {row : OutlineRow} (h : row.depth < depth)
    (above : List OutlineRow) : parentPath depth (row :: above) = row.path above := by
  rw [parentPath, if_pos h, path]

theorem parentPath_cons_of_le {depth : Nat} {row : OutlineRow} (h : depth ≤ row.depth)
    (above : List OutlineRow) : parentPath depth (row :: above) = parentPath depth above := by
  rw [parentPath, if_neg (Nat.not_lt.mpr h)]

end OutlineRow

namespace Outline

/-- The paths of rows below `above`. -/
def pathsBelow (above : List OutlineRow) : List (Option OutlineRow) → List (Option Path)
  | [] => []
  | none :: rest => none :: pathsBelow above rest
  | some row :: rest => some (row.path above) :: pathsBelow (row :: above) rest

def paths (rows : List (Option OutlineRow)) : List (Option Path) :=
  pathsBelow [] rows

theorem length_pathsBelow (above : List OutlineRow) (rows : List (Option OutlineRow)) :
    (pathsBelow above rows).length = rows.length := by
  fun_induction pathsBelow above rows with
  | case1 => rfl
  | case2 _ _ ih => simp [ih]
  | case3 _ _ _ ih => simp [ih]

theorem length_paths (rows : List (Option OutlineRow)) : (paths rows).length = rows.length :=
  length_pathsBelow [] rows

end Outline

end Marginalia
