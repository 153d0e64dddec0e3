import Marginalia.Document.Indexed
import Marginalia.Proofs.Ancestry
import Marginalia.Proofs.DataKept

/-!
# Addressing

A document with an index is opened from a text or from rows and then changed: rows
are put in and replaced, and comments of other documents are put into it. After all
of this, and after each step of an annotation, the index is the one of the rows:
the index that a new document with the same rows and the same width of a level
has. So what is looked up in it is what reading the rows anew would give, and a
document with an index goes through the same changes as the document without.

A step of an annotation looks for a row or a place among the rows by the index,
by a text, or where the last comment was put in. It finds none that the document
does not have.

## Results

* `Document.pathAt?_indexed`, `Document.lineOf?_indexed` — what an index that was made from the rows tells.
* `IndexedDocument.Fresh.matches`  — an index made from the rows agrees with them.
* `IndexedProgress.Tracks.write`, `IndexedProgress.Tracks.insert` — one step of an annotation.
* `IndexedProgress.inBounds`       — the places of a step are in the document.
* `IndexedDocument.Fresh.annotate` — a document with an index is annotated as the document is.
* `IndexedDocument.Fresh.editAll`  — after any changes the index is the one of the rows.
* `index_matches_rows`             — the index matches the rows in all that is reached.
-/

namespace Marginalia

-- ---------------------------------------------------------------------------
-- An index made from the rows
-- ---------------------------------------------------------------------------

namespace Document

theorem pathAt?_indexed (d : Document) (n : Nat) : d.indexed.pathAt? n = d.pathAt? n := by
  rw [IndexedDocument.pathAt?, indexed]
  cases hPath : d.pathAt? n with
  | none =>
    rw [Option.map_eq_none_iff, List.find?_eq_none]
    rintro ⟨m, p⟩ hEntry hNumber
    obtain rfl : m = n := of_decide_eq_true hNumber
    rw [mem_pathTable_iff, hPath] at hEntry
    cases hEntry
  | some p =>
    obtain ⟨⟨m, q⟩, hFind⟩ : ∃ entry, d.pathTable.find? (·.1 = n) = some entry :=
      Option.isSome_iff_exists.mp
        (List.find?_isSome.mpr ⟨(n, p), mem_pathTable_iff.mpr hPath, decide_eq_true rfl⟩)
    obtain rfl : m = n := by simpa using List.find?_some hFind
    have hEntry := mem_pathTable_iff.mp (List.mem_of_find?_eq_some hFind)
    rw [hFind, ← hPath, hEntry]
    rfl

/-- The index lists the lines from the top, so the first entry with a path is the
first line with it. -/
theorem lineOf?_indexed (d : Document) (p : Path) : d.indexed.lineOf? p = d.lineOf? p := by
  have hSearch : d.indexed.lineOf? p
      = (List.range d.length).find? fun n => d.pathAt? n = some p := by
    have hTest : (fun n => Option.any (fun entry : Nat × Path => decide (entry.2 = p))
        ((d.pathAt? n).map fun q => (n, q))) = fun n => decide (d.pathAt? n = some p) := by
      funext n
      cases d.pathAt? n <;> simp
    rw [IndexedDocument.lineOf?, indexed, pathTable_eq_range, List.find?_filterMap, hTest]
    cases hFind : (List.range d.length).find? fun n => d.pathAt? n = some p with
    | none => rfl
    | some n =>
      have hPath : d.pathAt? n = some p := by simpa using List.find?_some hFind
      simp [hPath]
  ext n
  rw [hSearch, List.find?_range_eq_some, lineOf?_eq_some_iff]
  simp only [decide_eq_true_eq, List.mem_range, Bool.not_eq_true', decide_eq_false_iff_not]
  constructor
  · rintro ⟨hPath, -, hFirst⟩
    exact ⟨hPath, hFirst⟩
  · rintro ⟨hPath, hFirst⟩
    exact ⟨hPath, lineOf?_lt (lineOf?_eq_some_iff.mpr ⟨hPath, hFirst⟩), hFirst⟩

theorem readRows_indexed (d : Document) : d.indexed.readRows = d.readRows := by
  apply List.ext_getElem?
  intro n
  show _ = d.rowAt? n
  rw [rowAt?_eq, IndexedDocument.readRows, List.getElem?_mapIdx, pathAt?_indexed]
  rfl

theorem comments_indexed (d : Document) : d.indexed.comments = d.comments := by
  simp only [IndexedDocument.comments, comments, readRows_indexed]

theorem dataAt?_indexed (d : Document) (p : Path) : d.indexed.dataAt? p = d.dataAt? p := by
  rw [IndexedDocument.dataAt?, lineOf?_indexed, dataAt?]
  simp only [IndexedDocument.rowAt?, readRows_indexed, rowAt?]

-- ---------------------------------------------------------------------------
-- Lines of data
-- ---------------------------------------------------------------------------

theorem isSome_lineOf?_iff {d : Document} {p : Path} :
    (d.lineOf? p).isSome ↔ ∃ n, d.pathAt? n = some p := by
  rw [← Option.ne_none_iff_isSome, ne_eq, lineOf?_eq_none_iff, not_not, List.mem_iff_getElem?]
  simp only [pathAt?_eq_some_iff]

/-- What is found at a path is the first line that has it, as it is read. -/
theorem dataAt?_of_lineOf? {d : Document} {p : Path} {n : Nat} (hLine : d.lineOf? p = some n) :
    ∃ line, d.dataAt? p = some line ∧ line.number = n ∧ line.path? = some p ∧
      d.textAt? n = some line.text := by
  have hLt : n < d.readRows.length := by
    rw [length_readRows]
    exact lineOf?_lt hLine
  have hRow : d.readRows[n]? = some d.readRows[n] := List.getElem?_eq_getElem hLt
  have hRead := (readAt_of_getElem?_readRows hRow).1
  have hPath : d.readRows[n].line.path? = some p := by
    rw [← pathAt?_of_getElem?_readRows hRow]
    exact (lineOf?_eq_some_iff.mp hLine).1
  refine ⟨d.readRows[n].line, ?_, hRead.number_eq, hPath, ?_⟩
  · rw [dataAt?, hLine, Option.bind_some, rowAt?, hRow, Option.bind_some]
    exact hRead.dataLine?_of_path_some hPath
  · exact textAt?_of_getElem?_readRows hRow

theorem isSome_dataAt?_iff {d : Document} {p : Path} :
    (d.dataAt? p).isSome ↔ ∃ n, d.pathAt? n = some p := by
  rw [← isSome_lineOf?_iff]
  cases hLine : d.lineOf? p with
  | none =>
    rw [dataAt?, hLine]
    rfl
  | some n =>
    obtain ⟨line, hData, -⟩ := dataAt?_of_lineOf? hLine
    rw [hData]
    simp

end Document

-- ---------------------------------------------------------------------------
-- The index and the rows
-- ---------------------------------------------------------------------------

namespace IndexedDocument

/-- The index is the one that is made from the rows, the levels of the
indentation having this width. -/
structure Fresh (levelWidth : Nat) (d : IndexedDocument) : Prop where
  levelWidth_eq : d.levelWidth = levelWidth
  eq_indexed : d = d.toDocument.indexed

/-- The index and the rows of a document agree, the levels of its indentation
having this width. -/
structure Matches (levelWidth : Nat) (d : IndexedDocument) : Prop where
  /-- The index is that of a new document with the same rows. -/
  anew : d.index = (ofRows levelWidth d.rows).index
  /-- The index lists the lines that have paths. -/
  listed : ∀ n p, (n, p) ∈ d.index ↔ d.pathAt? n = some p
  /-- The lines that have paths are the rows with data. -/
  addressed : ∀ n, (d.pathAt? n).isSome ↔
    ∃ text, d.textAt? n = some text ∧ (Row.read n text).hasData
  /-- A row is read with the path that the index has for it. -/
  carried : ∀ n < d.length, (d.rowAt? n).map (·.line.path?) = some (d.pathAt? n)
  /-- A line is found at each path of the index and at no other. -/
  found : ∀ p, (d.dataAt? p).isSome ↔ ∃ n, (n, p) ∈ d.index
  /-- It is the first line with the path, read with the path. -/
  first : ∀ p line, d.dataAt? p = some line → line.path? = some p ∧
    d.textAt? line.number = some line.text ∧ (line.number, p) ∈ d.index ∧
    ∀ n, (n, p) ∈ d.index → line.number ≤ n

theorem fresh_indexed {levelWidth : Nat} {d : Document} (hWidth : d.levelWidth = levelWidth) :
    d.indexed.Fresh levelWidth :=
  ⟨hWidth, rfl⟩

/-- **An index made from the rows agrees with them.** -/
theorem Fresh.matches {levelWidth : Nat} {d : IndexedDocument} (hFresh : d.Fresh levelWidth) :
    d.Matches levelWidth := by
  rw [← hFresh.levelWidth_eq, hFresh.eq_indexed]
  generalize d.toDocument = d
  refine ⟨rfl, fun n p => ?_, fun n => ?_, fun n hLt => ?_, fun p => ?_, fun p line hData => ?_⟩
  · rw [Document.pathAt?_indexed]
    exact Document.mem_pathTable_iff
  · rw [Document.pathAt?_indexed, Document.isSome_pathAt?, Document.dataLineAt?]
    show _ ↔ ∃ text, d.textAt? n = some text ∧ _
    cases d.textAt? n <;> simp [Row.hasData]
  · have hText : d.textAt? n = some d.rows[n] := List.getElem?_eq_getElem hLt
    rw [rowAt?, Document.readRows_indexed, Document.pathAt?_indexed, ← Document.rowAt?,
      Document.rowAt?_eq, hText, Option.map_some, Option.map_some, Row.line_withPath]
    rfl
  · rw [Document.dataAt?_indexed, Document.isSome_dataAt?_iff]
    simp only [Document.indexed, Document.mem_pathTable_iff]
  · rw [Document.dataAt?_indexed] at hData
    cases hLine : d.lineOf? p with
    | none =>
      rw [Document.dataAt?, hLine] at hData
      cases hData
    | some n =>
      obtain ⟨other, hOther, rfl, hPath, hText⟩ := Document.dataAt?_of_lineOf? hLine
      obtain rfl := Option.some.inj (hOther.symm.trans hData)
      obtain ⟨hAt, hFirst⟩ := Document.lineOf?_eq_some_iff.mp hLine
      refine ⟨hPath, hText, Document.mem_pathTable_iff.mpr hAt, fun n hn => ?_⟩
      exact Nat.le_of_not_lt fun hLt => hFirst n hLt (Document.mem_pathTable_iff.mp hn)

end IndexedDocument

-- ---------------------------------------------------------------------------
-- The places of a step
-- ---------------------------------------------------------------------------

namespace Progress

variable {progress : Progress} {comment : Comment} {n : Nat}

/-- An inline comment is written on a row that is there. -/
theorem carrier?_lt (hCarrier : progress.carrier? comment = some n) :
    n < progress.document.length := by
  obtain ⟨p, -, hLine⟩ := Option.bind_eq_some_iff.mp hCarrier
  exact Document.lineOf?_lt hLine

theorem latestOn?_lt {line : Line} (hLatest : progress.latestOn? line = some n) :
    n < progress.document.length := by
  obtain ⟨⟨key, number⟩, -, hSame⟩ := Option.bind_eq_some_iff.mp hLatest
  dsimp only at hSame
  split at hSame
  · next hText =>
    obtain rfl := Option.some.inj hSame
    exact (List.getElem?_eq_some_iff.mp hText.2).1
  · cases hSame

theorem lineOfText?_lt {d : Document} {text : Text} (hLine : d.lineOfText? text = some n) :
    n < d.length := by
  rw [Document.lineOfText?, List.idxOf?, List.findIdx?_eq_some_iff_getElem] at hLine
  exact hLine.1

/-- A comment that does not belong to the end of its document is put in above a
row that is there. -/
theorem insertionLine?_lt (hAnchor : comment.anchor? ≠ some .bottom)
    (hLine : progress.insertionLine? comment = some n) : n < progress.document.length := by
  unfold insertionLine? insertionLineBy at hLine
  split at hLine
  · cases hLine
  · next line _ =>
    obtain ⟨p, -, hFirst⟩ := Option.bind_eq_some_iff.mp hLine
    exact Document.lineOf?_lt hFirst
  · next line _ =>
    split at hLine
    · cases hLine
    · rcases Option.or_eq_some_iff.mp hLine with hLatest | ⟨-, hText⟩
      · exact latestOn?_lt hLatest
      · exact lineOfText?_lt hText
  · next hBottom => exact absurd hBottom hAnchor

/-- Every comment is put in at a place among the rows. -/
theorem insertionLine?_le (hLine : progress.insertionLine? comment = some n) :
    n ≤ progress.document.length := by
  by_cases hAnchor : comment.anchor? = some .bottom
  · rw [insertionLine?, insertionLineBy, hAnchor] at hLine
    exact Nat.le_of_eq (Option.some.inj hLine).symm
  · exact Nat.le_of_lt (insertionLine?_lt hAnchor hLine)

end Progress

-- ---------------------------------------------------------------------------
-- Annotating with an index
-- ---------------------------------------------------------------------------

namespace IndexedProgress

/-- The annotation of a document with an index is as far as that of the document,
and the index is the one of the rows. -/
structure Tracks (levelWidth : Nat) (progress : Progress) (indexed : IndexedProgress) : Prop where
  toProgress : indexed.toProgress = progress
  fresh : indexed.indexed.Fresh levelWidth

variable {levelWidth : Nat} {progress : Progress} {indexed : IndexedProgress}

theorem Tracks.lineOf? (hTracks : Tracks levelWidth progress indexed) :
    indexed.indexed.lineOf? = progress.document.lineOf? := by
  rw [hTracks.fresh.eq_indexed, ← hTracks.toProgress]
  exact funext indexed.document.lineOf?_indexed

theorem Tracks.carrier? (hTracks : Tracks levelWidth progress indexed) (comment : Comment) :
    indexed.carrier? comment = progress.carrier? comment := by
  rw [IndexedProgress.carrier?, hTracks.lineOf?, Progress.carrier?]

theorem Tracks.insertionLine? (hTracks : Tracks levelWidth progress indexed) (comment : Comment) :
    indexed.insertionLine? comment = progress.insertionLine? comment := by
  rw [IndexedProgress.insertionLine?, hTracks.lineOf?, hTracks.toProgress, Progress.insertionLine?]

/-- A step keeps the index that of the rows, if it leaves the rows alone where
there is no row for its comment. -/
theorem Tracks.advance (hTracks : Tracks levelWidth progress indexed) {number? : Option Nat}
    {next : Progress} (hWidth : next.document.levelWidth = progress.document.levelWidth)
    (hNone : number? = none → next.document = progress.document) :
    Tracks levelWidth next (indexed.advance number? next) := by
  have hSame : progress.document.levelWidth = levelWidth := by
    rw [← hTracks.toProgress]
    exact hTracks.fresh.levelWidth_eq
  refine ⟨rfl, hWidth.trans hSame, ?_⟩
  cases number? with
  | some n => rfl
  | none =>
    have hIndex : indexed.index = indexed.document.pathTable :=
      congrArg IndexedDocument.index hTracks.fresh.eq_indexed
    rw [hTracks.toProgress, ← hNone rfl] at hIndex
    rw [IndexedProgress.indexed, IndexedProgress.advance, hIndex]
    rfl

/-- One inline comment more. -/
theorem Tracks.write (hTracks : Tracks levelWidth progress indexed) (entry : Nat × Comment) :
    Tracks levelWidth (progress.write entry) (indexed.write entry) := by
  rw [IndexedProgress.write, hTracks.carrier?, hTracks.toProgress, Progress.write]
  refine hTracks.advance ?_ fun hNone => ?_
  · cases progress.carrier? entry.2 <;> rfl
  · rw [hNone, Progress.writeOn]

/-- One comment with its own row more. -/
theorem Tracks.insert (hTracks : Tracks levelWidth progress indexed) (entry : Nat × Comment) :
    Tracks levelWidth (progress.insert entry) (indexed.insert entry) := by
  rw [IndexedProgress.insert, hTracks.insertionLine?, hTracks.toProgress, Progress.insert]
  refine hTracks.advance ?_ fun hNone => ?_
  · cases progress.insertionLine? entry.2 <;> rfl
  · rw [hNone, Progress.insertAbove]

theorem Tracks.foldl_write (hTracks : Tracks levelWidth progress indexed) (entries : List (Nat × Comment)) :
    Tracks levelWidth (entries.foldl Progress.write progress)
      (entries.foldl IndexedProgress.write indexed) := by
  induction entries generalizing progress indexed with
  | nil => exact hTracks
  | cons entry rest ih => exact ih (hTracks.write entry)

theorem Tracks.foldr_insert (hTracks : Tracks levelWidth progress indexed) (entries : List (Nat × Comment)) :
    Tracks levelWidth (entries.foldr Progress.insert progress)
      (entries.foldr IndexedProgress.insert indexed) := by
  induction entries with
  | nil => exact hTracks
  | cons entry rest ih => exact ih.insert entry

/-- The states that an annotation passes: after some of the inline comments, the
first ones, or after all of them and some of the others, the last ones. -/
inductive Passes (d : IndexedDocument) (comments : Collection) : IndexedProgress → Prop
  | writing {before after : List (Nat × Comment)} (hSplit : comments.inlineEntries = before ++ after) :
      Passes d comments (before.foldl IndexedProgress.write (start d))
  | inserting {before after : List (Nat × Comment)} (hSplit : comments.rowEntries = before ++ after) :
      Passes d comments (after.foldr IndexedProgress.insert (writeAll d comments))

variable {d : IndexedDocument} {comments : Collection}

/-- An annotation passes its last state. -/
theorem Passes.complete : Passes d comments (complete d comments) :=
  .inserting (show comments.rowEntries = [] ++ comments.rowEntries from rfl)

theorem tracks_start (hFresh : d.Fresh levelWidth) :
    Tracks levelWidth { document := d.toDocument } (start d) :=
  ⟨rfl, hFresh⟩

theorem tracks_writeAll (hFresh : d.Fresh levelWidth) (comments : Collection) :
    Tracks levelWidth (Progress.writeAll d.toDocument comments) (writeAll d comments) :=
  (tracks_start hFresh).foldl_write comments.inlineEntries

theorem tracks_complete (hFresh : d.Fresh levelWidth) (comments : Collection) :
    Tracks levelWidth (Progress.complete d.toDocument comments)
      (IndexedProgress.complete d comments) :=
  (tracks_writeAll hFresh comments).foldr_insert comments.rowEntries

/-- In every state that an annotation passes, the index is the one of the rows. -/
theorem Passes.tracks (hPasses : Passes d comments indexed) (hFresh : d.Fresh levelWidth) :
    Tracks levelWidth indexed.toProgress indexed := by
  refine ⟨rfl, ?_⟩
  cases hPasses with
  | writing _ => exact ((tracks_start hFresh).foldl_write _).fresh
  | inserting _ => exact ((tracks_writeAll hFresh comments).foldr_insert _).fresh

/-- The places that a step may use are in the document, whatever comment it is
for. -/
structure InBounds (indexed : IndexedProgress) : Prop where
  carrier : ∀ comment n, indexed.carrier? comment = some n → n < indexed.document.length
  insertion : ∀ comment n, indexed.insertionLine? comment = some n → n ≤ indexed.document.length

/-- **The places of a step are in the document.** -/
theorem inBounds (hTracks : Tracks levelWidth progress indexed) : indexed.InBounds := by
  refine ⟨fun comment n hCarrier => ?_, fun comment n hLine => ?_⟩
  · rw [hTracks.carrier?] at hCarrier
    rw [hTracks.toProgress]
    exact Progress.carrier?_lt hCarrier
  · rw [hTracks.insertionLine?] at hLine
    rw [hTracks.toProgress]
    exact Progress.insertionLine?_le hLine

end IndexedProgress

-- ---------------------------------------------------------------------------
-- Changes of all kinds
-- ---------------------------------------------------------------------------

namespace IndexedDocument

variable {levelWidth : Nat} {d : IndexedDocument}

/-- **A document with an index is annotated as the document is**, and has the
index of its rows again. -/
theorem Fresh.annotate (hFresh : d.Fresh levelWidth) (comments : Collection) :
    d.annotate comments
      = ((d.toDocument.annotate comments).document.indexed, d.toDocument.annotate comments) := by
  have hTracks := IndexedProgress.tracks_complete hFresh comments
  have hResult : (IndexedProgress.complete d comments).result
      = d.toDocument.annotate comments := by
    rw [hTracks.toProgress, Document.annotate]
  have hIndexed : (IndexedProgress.complete d comments).indexed
      = (d.toDocument.annotate comments).document.indexed := by
    rw [hTracks.fresh.eq_indexed, ← hResult]
    rfl
  rw [IndexedDocument.annotate, hIndexed, hResult]

theorem fresh_opened (levelWidth : Nat) (opening : Opening) :
    (opened levelWidth opening).Fresh levelWidth := by
  cases opening with
  | text text =>
    rw [opened, ofText, Document.ofText]
    split <;> exact fresh_indexed rfl
  | rows rows => exact fresh_indexed rfl

/-- A change keeps the index that of the rows. -/
theorem Fresh.edit (hFresh : d.Fresh levelWidth) (change : Edit) :
    (d.edit change).Fresh levelWidth := by
  have hWidth := hFresh.levelWidth_eq
  cases change with
  | insert number text => exact fresh_indexed hWidth
  | replace number text =>
    rw [IndexedDocument.edit, setAt]
    split
    · exact fresh_indexed hWidth
    · exact hFresh
  | annotate comments =>
    rw [IndexedDocument.edit, hFresh.annotate]
    exact fresh_indexed ((Decisions.made d.toDocument comments).levelWidth_annotate.trans hWidth)

/-- **After any changes the index is the one of the rows.** -/
theorem Fresh.editAll (hFresh : d.Fresh levelWidth) (edits : List Edit) :
    (d.editAll edits).Fresh levelWidth := by
  induction edits generalizing d with
  | nil => exact hFresh
  | cons change rest ih => exact ih (hFresh.edit change)

end IndexedDocument

/-- **The index always matches the rows.** After any changes to a document that
was opened with some width of a level, and in every state that the annotation of
such a document passes, the index is that of a new document with the same rows and
the same width, and rows and lines are found by it; and every place that a step of
an annotation uses is in its document. -/
theorem index_matches_rows (levelWidth : Nat) (opening : IndexedDocument.Opening)
    (edits : List IndexedDocument.Edit) :
    ((IndexedDocument.opened levelWidth opening).editAll edits).Matches levelWidth ∧
    ∀ comments progress,
      IndexedProgress.Passes ((IndexedDocument.opened levelWidth opening).editAll edits)
        comments progress →
      progress.indexed.Matches levelWidth ∧ progress.InBounds := by
  have hFresh := (IndexedDocument.fresh_opened levelWidth opening).editAll edits
  refine ⟨hFresh.matches, fun comments progress hPasses => ?_⟩
  have hTracks := hPasses.tracks hFresh
  exact ⟨hTracks.fresh.matches, IndexedProgress.inBounds hTracks⟩

/-- A document with a row put in after its end, and the last state of putting two
comments into it. -/
theorem index_matches_rows_annotated :
    ∃ last : IndexedProgress,
      IndexedProgress.Passes
        ((IndexedDocument.opened 4 (.text "a: 1".toList)).editAll [.insert 9 "- x".toList])
        (IndexedDocument.ofText 4 "a: 2 # y\n\n- z".toList).comments last ∧
      last.indexed.rows = ["a: 1 # y".toList, [], "- x".toList] ∧
      last.indexed.Matches 4 ∧ last.InBounds := by
  have hPasses : IndexedProgress.Passes
      ((IndexedDocument.opened 4 (.text "a: 1".toList)).editAll [.insert 9 "- x".toList])
      (IndexedDocument.ofText 4 "a: 2 # y\n\n- z".toList).comments _ := .complete
  exact ⟨_, hPasses, by decide, (index_matches_rows 4 _ _).2 _ _ hPasses⟩

end Marginalia
