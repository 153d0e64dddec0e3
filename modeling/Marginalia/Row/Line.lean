import Marginalia.Row.Entry
import Marginalia.Text.Indent
import Marginalia.Path.Basic

/-!
# Lines

A line is a row of a document that has been read: its number, counted from zero,
its text, what its data says, and its path once the document has given it one.

* `Line.ofText`  : the line whose whole text is data.
* `Line.ofData`  : the line whose data is a part of its text.
* `Line.ofBlank` : the line without data.
-/

namespace Marginalia

/-- A row that has been read. -/
structure Line where
  number : Nat
  text : Text
  entry : Entry
  path? : Option Path := none
  deriving DecidableEq, Repr

namespace Line

/-- The line that says what `data`, a part of its text, says. -/
def ofData (number : Nat) (text data : Text) : Line :=
  { number, text, entry := .ofData data }

/-- The line whose whole text is data. -/
def ofText (number : Nat) (text : Text) : Line :=
  ofData number text text

/-- The line that says nothing. -/
def ofBlank (number : Nat) (text : Text) : Line :=
  { number, text, entry := .plain }

def key (line : Line) : Text :=
  line.entry.key

def value (line : Line) : Text :=
  line.entry.value

def isItem (line : Line) : Bool :=
  line.entry.isItem

def depth (levelWidth : Nat) (line : Line) : Nat :=
  line.text.depth levelWidth

/-- The line with the path that its document gives it. -/
def withPath (path? : Option Path) (line : Line) : Line :=
  { line with path? }

end Line

end Marginalia
