import Marginalia.Document.Comments
import Marginalia.Text.Pad
import Marginalia.Text.Quoted

/-!
# Listings

The comments of a document, one after the other, each with the number of its
line counted from one, its form, the place it belongs to, and its words. A
listing is shown as a table or as a JSON array.

* `Listing.ofDocument` : the listing of a document. `Listing.length_ofDocument`: it has all comments.
* `Listing.table`, `Listing.json` : the two ways to show it.
-/

namespace Marginalia

/-- A comment as it is listed. -/
structure ListedComment where
  line : Nat
  form : CommentForm
  anchor : Text
  words : Text
  deriving DecidableEq, Repr

def Comment.listed (comment : Comment) : ListedComment where
  line := comment.line.number + 1
  form := comment.form
  anchor :=
    match comment.anchor? with
    | some anchor => anchor.inWords 1
    | none => []
  words := comment.words

namespace Listing

/-- The comments of a document as they are listed, in the order of their lines. -/
def ofDocument (d : Document) : List ListedComment :=
  d.comments.entries.map fun entry => entry.2.listed

theorem length_ofDocument (d : Document) : (ofDocument d).length = d.comments.size := by
  simp [ofDocument, Collection.size]

-- ---------------------------------------------------------------------------
-- Table
-- ---------------------------------------------------------------------------

def lineColumn : Field := { width := 4 }

def formColumn : Field := { width := 8 }

def anchorColumn : Field := { width := 24 }

/-- A row of the table, without the blanks at its end. -/
def tableRow (comment : ListedComment) : Text :=
  let columns := lineColumn.fit (decimal comment.line) ++ formColumn.fit comment.form.name
    ++ anchorColumn.fit comment.anchor
  Text.stripEnd isBlank (columns ++ [' ', ' '] ++ comment.words)

/-- The listing as a table, a line for each comment. -/
def table (comments : List ListedComment) : Text :=
  comments.flatMap fun comment => tableRow comment ++ ['\n']

-- ---------------------------------------------------------------------------
-- JSON
-- ---------------------------------------------------------------------------

/-- A member of an object, on a line of its own. -/
def jsonMember (name : Text) (value : Text) : Text :=
  "    ".toList ++ Quoted.quote name ++ ": ".toList ++ value

def jsonObject (comment : ListedComment) : Text :=
  let members :=
    [ jsonMember "line".toList (decimal comment.line),
      jsonMember "kind".toList (Quoted.quote comment.form.name),
      jsonMember "context".toList (Quoted.quote comment.anchor),
      jsonMember "text".toList (Quoted.quote comment.words) ]
  [' ', ' ', '\x7b', '\n'] ++ [',', '\n'].intercalate members ++ ['\n', ' ', ' ', '\x7d']

/-- The listing as a JSON array, indented by two spaces. -/
def json (comments : List ListedComment) : Text :=
  if comments.isEmpty then ['[', ']']
  else ['[', '\n'] ++ [',', '\n'].intercalate (comments.map jsonObject) ++ ['\n', ']']

end Listing

end Marginalia
