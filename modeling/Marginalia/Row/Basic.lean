import Marginalia.Row.Comment

/-!
# Rows

A row of a document holds data, a comment, or both.

* A row of blanks is a blank comment.
* A row without a marker that starts a comment is data.
* In any other row the comment's body is what stands after the first such marker. The comment is full when
  only blanks stand before it. Otherwise it is inline, and what stands before it is the data of the row.

A row with data says something, so its document gives it a path.

* `Text.form`, `Row.read` : what a row holds.
* `Row.dataLine?`         : the line of a row with data.
* `Row.number_read`, `Row.text_read` : reading keeps the number and the text of a row.
-/

namespace Marginalia

/-- What a row consists of. -/
inductive RowForm
  /-- Nothing but blanks. -/
  | blank
  /-- Data alone. -/
  | data
  /-- A comment alone, with this body. -/
  | full (body : Text)
  /-- Data, up to a comment with this body. -/
  | inline (data body : Text)
  deriving DecidableEq, Repr

/-- What a row with this text consists of. -/
def Text.form (t : Text) : RowForm :=
  if t.allBlank then .blank
  else
    match t.splitAtMarker with
    | none => .data
    | some (before, body) => if Text.allBlank before then .full body else .inline before body

/-- A row of a document: a line of data alone, or a comment and its line. -/
inductive Row
  | data (line : Line)
  | comment (comment : Comment)
  deriving DecidableEq, Repr

namespace Row

def read (number : Nat) (text : Text) : Row :=
  match text.form with
  | .blank => .comment { line := .ofBlank number text, body := [], form := .blank }
  | .data => .data (.ofText number text)
  | .full body => .comment { line := .ofBlank number text, body, form := .full }
  | .inline before body => .comment { line := .ofData number text before.trim, body, form := .inline }

def line : Row → Line
  | data l => l
  | comment c => c.line

def comment? : Row → Option Comment
  | data _ => none
  | comment c => some c

/-- The line of a row with data. -/
def dataLine? : Row → Option Line
  | data l => some l
  | comment c => if c.isInline then some c.line else none

def hasData (row : Row) : Bool :=
  row.dataLine?.isSome

/-- The row with the path that its document gives it. -/
def withPath (path? : Option Path) : Row → Row
  | data l => data (l.withPath path?)
  | comment c => comment { c with line := c.line.withPath path? }

theorem number_read (number : Nat) (text : Text) : (read number text).line.number = number := by
  unfold read
  split <;> rfl

theorem text_read (number : Nat) (text : Text) : (read number text).line.text = text := by
  unfold read
  split <;> rfl

theorem line_withPath (path? : Option Path) (row : Row) :
    (row.withPath path?).line = row.line.withPath path? := by
  cases row <;> rfl

theorem hasData_withPath (path? : Option Path) (row : Row) :
    (row.withPath path?).hasData = row.hasData := by
  cases row with
  | data l => rfl
  | comment c =>
    simp only [withPath, hasData, dataLine?, Comment.isInline]
    by_cases h : c.form = .inline <;> simp [h]

/-- The line of data of a row is its line. -/
theorem line_of_dataLine? {row : Row} {l : Line} (h : row.dataLine? = some l) : row.line = l := by
  cases row with
  | data m => exact Option.some.inj h
  | comment c =>
    simp only [dataLine?] at h
    split at h
    · exact Option.some.inj h
    · cases h

end Row

end Marginalia
