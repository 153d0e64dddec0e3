import Marginalia.Outline
import Marginalia.Text.LineEnding

/-!
# Documents

A document is its rows, together with what it takes to write them as a text
again: the line ending, and whether one stands after the last row. The paths of
its rows follow from the rows and the width of a level of indentation, so they
change with every change to a row.

* `Document.ofText`, `Document.toText` : reading and writing. `Document.toText_ofText`: nothing is lost.
* `Document.readRows`                  : the rows as they are read, with their paths.
* `Document.pathAt?`, `Document.lineOf?` : from a line to its path and back.
* `Document.insertAt`, `Document.setAt`, `Document.extendAt` : changes to the rows.
-/

namespace Marginalia

/-- A document: its rows, what ends a line, whether it stands after the last row
too, and the width of a level of indentation. -/
structure Document where
  rows : List Text
  ending : LineEnding
  endsLast : Bool
  levelWidth : Nat
  deriving DecidableEq, Repr

namespace Document

-- ---------------------------------------------------------------------------
-- Text form
-- ---------------------------------------------------------------------------

/-- The rows of a text without its last line ending: an empty text has none. -/
def rowsOf (ending : LineEnding) (body : Text) : List Text :=
  if body.isEmpty then [] else ending.split body

/-- The document that a text is. -/
def ofText (levelWidth : Nat) (text : Text) : Document :=
  let ending := LineEnding.ofText text
  match ending.dropFinal? text with
  | some body => { rows := rowsOf ending body, ending, endsLast := true, levelWidth }
  | none => { rows := rowsOf ending text, ending, endsLast := false, levelWidth }

/-- The document with these rows, without a line ending after the last of them. -/
def ofRows (levelWidth : Nat) (rows : List Text) : Document :=
  { rows, ending := .lf, endsLast := false, levelWidth }

def toText (d : Document) : Text :=
  d.ending.join d.rows ++ if d.endsLast then d.ending.chars else []

theorem join_rowsOf (ending : LineEnding) (body : Text) : ending.join (rowsOf ending body) = body := by
  rw [rowsOf]
  split
  · next h =>
    rw [List.isEmpty_iff.mp h]
    rfl
  · exact ending.join_split body

theorem toText_ofText (levelWidth : Nat) (text : Text) : (ofText levelWidth text).toText = text := by
  simp only [ofText]
  split
  · next body h => simp [toText, join_rowsOf, ← LineEnding.dropFinal?_eq_some_iff.mp h]
  · simp [toText, join_rowsOf]

-- ---------------------------------------------------------------------------
-- Rows and paths
-- ---------------------------------------------------------------------------

def length (d : Document) : Nat :=
  d.rows.length

def isEmpty (d : Document) : Bool :=
  d.rows.isEmpty

/-- The outline of a document, row by row: `none` for a row without data. -/
def outline (d : Document) : List (Option OutlineRow) :=
  d.rows.map (OutlineRow.ofText? d.levelWidth)

/-- The paths of a document, row by row: `none` for a row that has none. -/
def paths (d : Document) : List (Option Path) :=
  Outline.paths d.outline

/-- The numbers of the lines that have paths, ascending, with their paths. -/
def pathTable (d : Document) : List (Nat × Path) :=
  d.paths.zipIdx.filterMap fun entry => entry.1.map fun p => (entry.2, p)

/-- The rows of a document as they are read, with their paths. -/
def readRows (d : Document) : List Row :=
  (d.rows.zip d.paths).mapIdx fun number row => (Row.read number row.1).withPath row.2

def textAt? (d : Document) (number : Nat) : Option Text :=
  d.rows[number]?

/-- A row as it is read, with its path. -/
def rowAt? (d : Document) (number : Nat) : Option Row :=
  d.readRows[number]?

def pathAt? (d : Document) (number : Nat) : Option Path :=
  d.paths[number]?.join

/-- The number of the first row with a path. -/
def lineOf? (d : Document) (p : Path) : Option Nat :=
  d.paths.idxOf? (some p)

/-- The line of data at a path, the first if there are several. -/
def dataAt? (d : Document) (p : Path) : Option Line :=
  (d.lineOf? p).bind fun number => (d.rowAt? number).bind Row.dataLine?

/-- The number of the first row with a text. Rows without data have no paths, so
this is how they are found again. -/
def lineOfText? (d : Document) (text : Text) : Option Nat :=
  d.rows.idxOf? text

theorem length_paths (d : Document) : d.paths.length = d.rows.length := by
  rw [paths, Outline.length_paths, outline, List.length_map]

theorem length_readRows (d : Document) : d.readRows.length = d.rows.length := by
  simp [readRows, length_paths]

/-- A row is its text, read at its number, with its path. -/
theorem rowAt?_eq (d : Document) (number : Nat) :
    d.rowAt? number
      = (d.textAt? number).map fun text => (Row.read number text).withPath (d.pathAt? number) := by
  by_cases h : number < d.rows.length
  · have hp : number < d.paths.length := by rw [length_paths]; exact h
    have hzip : (d.rows.zip d.paths)[number]? = some (d.rows[number], d.paths[number]) :=
      List.getElem?_zip_eq_some.mpr ⟨List.getElem?_eq_getElem h, List.getElem?_eq_getElem hp⟩
    rw [rowAt?, readRows, List.getElem?_mapIdx, hzip]
    simp [textAt?, pathAt?, h, hp]
  · have hlen : d.readRows.length ≤ number := by rw [length_readRows]; exact Nat.le_of_not_lt h
    rw [rowAt?, textAt?, List.getElem?_eq_none hlen, List.getElem?_eq_none (Nat.le_of_not_lt h)]
    rfl

theorem mem_pathTable_iff {d : Document} {number : Nat} {p : Path} :
    (number, p) ∈ d.pathTable ↔ d.pathAt? number = some p := by
  simp only [pathTable, List.mem_filterMap, pathAt?, Option.join_eq_some_iff]
  constructor
  · rintro ⟨⟨path?, n⟩, hmem, hmap⟩
    obtain ⟨q, hq, heq⟩ := Option.map_eq_some_iff.mp hmap
    obtain ⟨rfl, rfl⟩ : n = number ∧ q = p := by simpa using heq
    rw [← hq]
    exact List.mem_zipIdx_iff_getElem?.mp hmem
  · intro h
    exact ⟨(some p, number), List.mem_zipIdx_iff_getElem?.mpr h, rfl⟩

-- ---------------------------------------------------------------------------
-- Changes
-- ---------------------------------------------------------------------------

/-- The document with a row put in before the one with this number, or after all
rows if there is none. -/
def insertAt (d : Document) (number : Nat) (text : Text) : Document :=
  { d with rows := d.rows.insertIdx (min number d.rows.length) text }

/-- The document with another text for a row; nothing changes if there is no
such row. -/
def setAt (d : Document) (number : Nat) (text : Text) : Document :=
  { d with rows := d.rows.set number text }

/-- The document with more text at the end of a row; nothing changes if there is
no such row. -/
def extendAt (d : Document) (number : Nat) (more : Text) : Document :=
  { d with rows := d.rows.modify number (· ++ more) }

end Document

end Marginalia
