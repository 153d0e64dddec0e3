import Marginalia.Document.Comments

/-!
# Annotating a document

Comments that were taken from one version of a document are put into another
version of it.

Inline comments come first, in ascending order. Each is written at the end of
the first row with the path of its anchor; rows keep their numbers.

Comments with a row to themselves follow, in descending order, so that what a
comment stands above is already there. Each row is put in right above its
anchor: above the first row with the path of its line of data, above the comment
that it stood above, or at the end. The row of that other comment is where it
was just put in, if it is the comment put in last; otherwise it is looked for by
its text.

A comment whose anchor does not exist is an orphan and left out, and so is each
comment that stood above an orphan.

* `Progress.write`, `Progress.insert` : one step for an inline comment, and for one with its own row.
* `Document.annotate`                 : all the steps, and what came of them.
* `carryComments`                     : the comments of one text put into another.
-/

namespace Marginalia

/-- What came of annotating a document: the document, how many comments are
placed in it, and the numbers of those that were left out, in ascending order. -/
structure Annotated where
  document : Document
  placed : Nat
  orphans : List Nat
  deriving DecidableEq, Repr

/-- How far a document is annotated: the document so far, how many comments are
placed in it, which were left out, the last first, and which one was put in last
with the number of its row. -/
structure Progress where
  document : Document
  placed : Nat := 0
  orphans : List Nat := []
  latest? : Option (Nat × Nat) := none
  deriving DecidableEq, Repr

namespace Progress

def carrier? (progress : Progress) (comment : Comment) : Option Nat :=
  comment.anchorPath?.bind progress.document.lineOf?

/-- Write an inline comment at the end of the row with this number, or leave it
out if there is none. -/
def writeOn (progress : Progress) (entry : Nat × Comment) : Option Nat → Progress
  | none => { progress with orphans := entry.1 :: progress.orphans }
  | some number =>
    { progress with
      document := progress.document.extendAt number entry.2.trailer
      placed := progress.placed + 1 }

/-- Write an inline comment at the end of the row of its data, or leave it out. -/
def write (progress : Progress) (entry : Nat × Comment) : Progress :=
  progress.writeOn entry (progress.carrier? entry.2)

/-- Where the comment that was put in last is now, if it is the comment on this
line. -/
def latestOn? (progress : Progress) (line : Line) : Option Nat :=
  progress.latest?.bind fun (key, number) =>
    if key = line.number ∧ progress.document.textAt? number = some line.text then some number else none

/-- The number of the row that the row of a comment is put in before, where
`lineOf?` finds the lines with paths. -/
def insertionLineBy (lineOf? : Path → Option Nat) (progress : Progress) (comment : Comment) :
    Option Nat :=
  match comment.anchor? with
  | none => none
  | some (.data line) => line.path?.bind lineOf?
  | some (.comment line) =>
    if line.number ∈ progress.orphans then none
    else (progress.latestOn? line).or (progress.document.lineOfText? line.text)
  | some .bottom => some progress.document.length

def insertionLine? (progress : Progress) (comment : Comment) : Option Nat :=
  progress.insertionLineBy progress.document.lineOf? comment

/-- Put the row of a comment in above the row with this number, or leave it out
if there is none. -/
def insertAbove (entry : Nat × Comment) (progress : Progress) : Option Nat → Progress
  | none => { progress with orphans := entry.1 :: progress.orphans, latest? := none }
  | some number =>
    { progress with
      document := progress.document.insertAt number entry.2.line.text
      placed := progress.placed + 1
      latest? := some (entry.1, number) }

/-- Put the row of a comment in right above its anchor, or leave it out. -/
def insert (entry : Nat × Comment) (progress : Progress) : Progress :=
  progress.insertAbove entry (progress.insertionLine? entry.2)

/-- The inline comments, in ascending order. -/
def writeAll (d : Document) (comments : Collection) : Progress :=
  comments.inlineEntries.foldl write { document := d }

/-- All comments: the inline ones, then those with a row to themselves in
descending order. -/
def complete (d : Document) (comments : Collection) : Progress :=
  comments.rowEntries.foldr insert (writeAll d comments)

/-- What came of annotating a document, all comments being dealt with. -/
def result (progress : Progress) : Annotated where
  document := progress.document
  placed := progress.placed
  orphans := progress.orphans.mergeSort

end Progress

def Document.annotate (d : Document) (comments : Collection) : Annotated :=
  (Progress.complete d comments).result

/-- The text `target` with the comments of the text `source`. -/
def carryComments (levelWidth : Nat) (source target : Text) : Text :=
  ((Document.ofText levelWidth target).annotate (Document.ofText levelWidth source).comments).document.toText

end Marginalia
