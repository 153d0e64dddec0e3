import Marginalia.Row.Line
import Marginalia.Path.Format

/-!
# Comments

A comment is a row, or the end of a row, that holds no data. An *inline* comment
follows the data of its row, a *full* one has its row to itself, and a *blank*
row is a comment without a word.

A comment that was taken from a document has an anchor, the place that it
belongs to: the line of data it stands at or above, the comment it stands above,
or the end of its document.

* `Comment.trailer` : what an inline comment adds to the row of its data.
* `Anchor.inWords`  : an anchor in words.
-/

namespace Marginalia

/-- How a comment stands in its row. -/
inductive CommentForm
  | inline
  | full
  | blank
  deriving DecidableEq, Repr

def CommentForm.name : CommentForm → Text
  | inline => "inline".toList
  | full => "full".toList
  | blank => "blank".toList

/-- The place that a comment belongs to. -/
inductive Anchor
  | data (line : Line)
  | comment (line : Line)
  | bottom
  deriving DecidableEq, Repr

namespace Anchor

/-- The line of an anchor, unless it is the end of the document. -/
def line? : Anchor → Option Line
  | data l => some l
  | comment l => some l
  | bottom => none

/-- The path of an anchor, if it is a line of data that has one. -/
def path? : Anchor → Option Path
  | data l => l.path?
  | comment _ => none
  | bottom => none

/-- An anchor in words, the first line of a document having the number `first`. -/
def inWords (first : Nat) : Anchor → Text
  | data l =>
    match l.path? with
    | some p => p.toText
    | none => "line ".toList ++ decimal (first + l.number)
  | comment l => "comment at line ".toList ++ decimal (first + l.number)
  | bottom => "end of document".toList

end Anchor

/-- A comment: the line it stands in, what stands after its marker, how it
stands there, and the place it belongs to if it was taken from a document. -/
structure Comment where
  line : Line
  body : Text
  form : CommentForm
  anchor? : Option Anchor := none
  deriving DecidableEq, Repr

namespace Comment

/-- The words of the comment: what stands after its marker, without the blanks
around it. -/
def words (comment : Comment) : Text :=
  comment.body.trim

/-- Whether the comment follows the data of its row. -/
def isInline (comment : Comment) : Bool :=
  comment.form == .inline

/-- The path of the line of data that the comment belongs to. -/
def anchorPath? (comment : Comment) : Option Path :=
  comment.anchor?.bind Anchor.path?

/-- What the comment adds to the row of its data when it is inline. -/
def trailer (comment : Comment) : Text :=
  ' ' :: marker :: comment.body

/-- The comment with the place that it belongs to. -/
def anchoredAt (comment : Comment) (anchor : Anchor) : Comment :=
  { comment with anchor? := some anchor }

theorem isInline_iff (comment : Comment) : comment.isInline ↔ comment.form = .inline := by
  simp [isInline]

end Comment

end Marginalia
