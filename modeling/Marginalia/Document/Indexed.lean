import Marginalia.Document.Annotate

/-!
# Documents with an index

A document that is asked for paths again and again keeps them in an index next to
its rows. The index is made when the document is opened and made anew after every
change to a row; lines and paths are looked up in it, also while the document is
annotated.

* `Document.indexed`                       : a document with its index.
* `IndexedDocument.pathAt?`, `IndexedDocument.lineOf?` : from a line to its path and back.
* `IndexedDocument.insertAt`, `IndexedDocument.setAt`  : changes to the rows.
* `IndexedDocument.annotate`               : the comments of another document put into it.
* `IndexedDocument.editAll`                : changes of all kinds, one after the other.
-/

namespace Marginalia

/-- A document with an index: the numbers of the lines that have paths, with their
paths. -/
structure IndexedDocument extends Document where
  index : List (Nat × Path)
  deriving DecidableEq, Repr

/-- The document with the index made from its rows. -/
def Document.indexed (d : Document) : IndexedDocument :=
  { d with index := d.pathTable }

namespace IndexedDocument

/-- The document that a text is. -/
def ofText (levelWidth : Nat) (text : Text) : IndexedDocument :=
  (Document.ofText levelWidth text).indexed

/-- The document with these rows. -/
def ofRows (levelWidth : Nat) (rows : List Text) : IndexedDocument :=
  (Document.ofRows levelWidth rows).indexed

-- ---------------------------------------------------------------------------
-- Rows and paths
-- ---------------------------------------------------------------------------

def pathAt? (d : IndexedDocument) (number : Nat) : Option Path :=
  (d.index.find? (·.1 = number)).map Prod.snd

/-- The number of the first line with a path. -/
def lineOf? (d : IndexedDocument) (p : Path) : Option Nat :=
  (d.index.find? (·.2 = p)).map Prod.fst

/-- The rows of a document as they are read, with their paths. -/
def readRows (d : IndexedDocument) : List Row :=
  d.rows.mapIdx fun number text => (Row.read number text).withPath (d.pathAt? number)

/-- A row as it is read, with its path. -/
def rowAt? (d : IndexedDocument) (number : Nat) : Option Row :=
  d.readRows[number]?

/-- The line of data at a path, the first if there are several. -/
def dataAt? (d : IndexedDocument) (p : Path) : Option Line :=
  (d.lineOf? p).bind fun number => (d.rowAt? number).bind Row.dataLine?

/-- The comments of a document, each with its place. -/
def comments (d : IndexedDocument) : Collection :=
  ⟨Document.commentsFrom 0 d.readRows, Document.ascending_commentsFrom 0 d.readRows⟩

-- ---------------------------------------------------------------------------
-- Changes to the rows
-- ---------------------------------------------------------------------------

/-- The document with a row put in before the one with this number, or after all
rows if there is none. -/
def insertAt (d : IndexedDocument) (number : Nat) (text : Text) : IndexedDocument :=
  (d.toDocument.insertAt number text).indexed

/-- The document with another text for a row; nothing changes if there is no
such row. -/
def setAt (d : IndexedDocument) (number : Nat) (text : Text) : IndexedDocument :=
  if number < d.rows.length then (d.toDocument.setAt number text).indexed else d

end IndexedDocument

-- ---------------------------------------------------------------------------
-- Annotation
-- ---------------------------------------------------------------------------

/-- How far a document with an index is annotated. -/
structure IndexedProgress extends Progress where
  index : List (Nat × Path)
  deriving DecidableEq, Repr

namespace IndexedProgress

/-- The document so far, with its index. -/
def indexed (progress : IndexedProgress) : IndexedDocument :=
  { progress.document with index := progress.index }

/-- The number of the row that an inline comment is written on. -/
def carrier? (progress : IndexedProgress) (comment : Comment) : Option Nat :=
  comment.anchorPath?.bind progress.indexed.lineOf?

/-- The number of the row that the row of a comment is put in before. -/
def insertionLine? (progress : IndexedProgress) (comment : Comment) : Option Nat :=
  progress.toProgress.insertionLineBy progress.indexed.lineOf? comment

/-- The progress after a step. The index is made anew if there was a row for the
comment. -/
def advance (progress : IndexedProgress) (number? : Option Nat) (next : Progress) :
    IndexedProgress :=
  { next with index := if number?.isSome then next.document.pathTable else progress.index }

/-- Write an inline comment at the end of the row of its data, or leave it out. -/
def write (progress : IndexedProgress) (entry : Nat × Comment) : IndexedProgress :=
  let number? := progress.carrier? entry.2
  progress.advance number? (progress.toProgress.writeOn entry number?)

/-- Put the row of a comment in right above its anchor, or leave it out. -/
def insert (entry : Nat × Comment) (progress : IndexedProgress) : IndexedProgress :=
  let number? := progress.insertionLine? entry.2
  progress.advance number? (progress.toProgress.insertAbove entry number?)

/-- The start of an annotation. -/
def start (d : IndexedDocument) : IndexedProgress :=
  { document := d.toDocument, index := d.index }

/-- The inline comments, in ascending order. -/
def writeAll (d : IndexedDocument) (comments : Collection) : IndexedProgress :=
  comments.inlineEntries.foldl write (start d)

/-- All comments: the inline ones, then those with a row to themselves in
descending order. -/
def complete (d : IndexedDocument) (comments : Collection) : IndexedProgress :=
  comments.rowEntries.foldr insert (writeAll d comments)

end IndexedProgress

namespace IndexedDocument

/-- The annotated document with its index, and what came of annotating it. -/
def annotate (d : IndexedDocument) (comments : Collection) : IndexedDocument × Annotated :=
  let progress := IndexedProgress.complete d comments
  (progress.indexed, progress.result)

-- ---------------------------------------------------------------------------
-- Changes of all kinds
-- ---------------------------------------------------------------------------

/-- What a document is opened from. -/
inductive Opening
  | text (text : Text)
  | rows (rows : List Text)
  deriving DecidableEq, Repr

/-- A change to a document. -/
inductive Edit
  | insert (number : Nat) (text : Text)
  | replace (number : Nat) (text : Text)
  | annotate (comments : Collection)

/-- The document that is opened with this width of a level. -/
def opened (levelWidth : Nat) : Opening → IndexedDocument
  | .text text => ofText levelWidth text
  | .rows rows => ofRows levelWidth rows

def edit (d : IndexedDocument) : Edit → IndexedDocument
  | .insert number text => d.insertAt number text
  | .replace number text => d.setAt number text
  | .annotate comments => (d.annotate comments).1

/-- The document after changes, made one after the other. -/
def editAll (d : IndexedDocument) (edits : List Edit) : IndexedDocument :=
  edits.foldl edit d

end IndexedDocument

end Marginalia
