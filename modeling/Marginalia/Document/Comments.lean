import Marginalia.Document.Basic
import Marginalia.Collection

/-!
# The comments of a document

The comments of a document are taken from it with the places they belong to. An
inline comment belongs to its own line. A full or blank comment belongs to the
row right below it: to its line if that row has data, to its comment if it has
none, and to the end of the document if there is no such row. A block of
comments thus hangs together, each comment by the next one, above the line of
data that follows it.

* `Anchor.above`       : the place right above a row.
* `Document.comments`  : the comments of a document.
* `Document.ascending_commentsFrom` : they come in the order of their lines.
-/

namespace Marginalia

/-- The place right above a row, or right above the end of a document. -/
def Anchor.above : Option Row → Anchor
  | none => .bottom
  | some row =>
    match row.dataLine? with
    | some l => .data l
    | none => .comment row.line

/-- The place that a comment with this row below it belongs to. -/
def Comment.anchorBefore (comment : Comment) (next? : Option Row) : Anchor :=
  if comment.isInline then .data comment.line else .above next?

namespace Document

/-- The comments among rows of which the first has this number, each with its
place. -/
def commentsFrom (number : Nat) : List Row → List (Nat × Comment)
  | [] => []
  | row :: rest =>
    match row.comment? with
    | none => commentsFrom (number + 1) rest
    | some comment =>
      (number, comment.anchoredAt (comment.anchorBefore rest.head?)) :: commentsFrom (number + 1) rest

theorem le_of_mem_commentsFrom {number : Nat} {rows : List Row} {entry : Nat × Comment}
    (h : entry ∈ commentsFrom number rows) : number ≤ entry.1 := by
  fun_induction commentsFrom number rows with
  | case1 => cases h
  | case2 _ _ _ _ ih => exact Nat.le_of_succ_le (ih h)
  | case3 _ _ _ _ _ ih =>
    rcases List.mem_cons.mp h with rfl | h
    · exact Nat.le_refl _
    · exact Nat.le_of_succ_le (ih h)

theorem ascending_commentsFrom (number : Nat) (rows : List Row) :
    (commentsFrom number rows).Pairwise fun a b => a.1 < b.1 := by
  fun_induction commentsFrom number rows with
  | case1 => exact .nil
  | case2 _ _ _ _ ih => exact ih
  | case3 _ _ _ _ _ ih => exact List.pairwise_cons.mpr ⟨fun _ he => le_of_mem_commentsFrom he, ih⟩

def comments (d : Document) : Collection :=
  ⟨commentsFrom 0 d.readRows, ascending_commentsFrom 0 d.readRows⟩

end Document

end Marginalia
