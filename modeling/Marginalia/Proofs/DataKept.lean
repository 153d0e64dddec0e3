import Marginalia.Proofs.Merge
import Mathlib.Data.List.Forall2

/-!
# Annotation keeps the data

Whatever comments are put into a document, its data stays what it was. A comment
that is written behind data leaves the row's part in the outline alone, and a
row that is put in has no part in it. The paths of a document follow from the
parts of its rows alone, the rows without data left out, so each line of data
keeps its path through both runs.

The comments may come from anywhere and be put under any numbers, as long as
each of them was read from some row: then a comment with its own row has no data
in it.

## Results

* `Outline.filterMap_pathsBelow` — the paths follow from the rows with data.
* `Comment.IsRead`               — a comment that was read; editing keeps `Collection.AllRead`.
* `Document.dataLines`           — the lines of data, described by the texts of the rows alone.
* `Decisions.outline_annotate`   — annotation keeps the outline, rows without data left out.
* `annotate_keeps_data`          — each line of data stays, up to the comments written behind it.
-/

namespace Marginalia

-- ---------------------------------------------------------------------------
-- Paths without the rows in between
-- ---------------------------------------------------------------------------

/-- Rows without data take no part: the paths in their order follow from the
rows with data in theirs. -/
theorem Outline.filterMap_pathsBelow (above : List OutlineRow) (rows : List (Option OutlineRow)) :
    (pathsBelow above rows).filterMap id
      = (pathsBelow above ((rows.filterMap id).map some)).filterMap id := by
  fun_induction pathsBelow above rows with
  | case1 => rfl
  | case2 above rest ih => simpa using ih
  | case3 above row rest ih => simpa [pathsBelow] using ih

-- ---------------------------------------------------------------------------
-- Comments that were read
-- ---------------------------------------------------------------------------

/-- The comment was read from a row with its text; its line may have been given a
path since, and the comment a place that it belongs to. -/
def Comment.IsRead (comment : Comment) : Prop :=
  ∃ number path?, Row.comment { comment with anchor? := none }
    = (Row.read number comment.line.text).withPath path?

/-- A comment with its own row has no data in it. -/
theorem Comment.IsRead.ofText?_eq_none {comment : Comment} (hRead : comment.IsRead)
    (hInline : comment.isInline = false) (levelWidth : Nat) :
    OutlineRow.ofText? levelWidth comment.line.text = none := by
  obtain ⟨number, path?, hRow⟩ := hRead
  have hData : (Row.read number comment.line.text).hasData = false := by
    rw [← Row.hasData_withPath path?, ← hRow, Row.hasData, Row.dataLine?]
    exact congrArg Option.isSome (if_neg (Bool.eq_false_iff.mp hInline))
  rw [← OutlineRow.isSome_ofText? levelWidth] at hData
  exact Option.not_isSome_iff_eq_none.mp (Bool.eq_false_iff.mp hData)

theorem Comment.IsRead.anchoredAt {comment : Comment} (hRead : comment.IsRead) (anchor : Anchor) :
    (comment.anchoredAt anchor).IsRead :=
  hRead

/-- Reading gives a comment without a place, and no path until a document adds
one. -/
theorem Row.isRead_of_withPath {number : Nat} {text : Text} {path? : Option Path} {comment : Comment}
    (hRow : (Row.read number text).withPath path? = .comment comment) : comment.IsRead := by
  have hLine : comment.line = (Row.read number text).line.withPath path? := by
    rw [← Row.line_withPath, hRow]
    rfl
  have hText : comment.line.text = text := by
    rw [hLine]
    exact Row.text_read number text
  have hPlace : { comment with anchor? := none } = comment := by
    unfold Row.read at hRow
    split at hRow <;> cases hRow <;> rfl
  exact ⟨number, path?, by rw [hPlace, hText, hRow]⟩

theorem Row.isRead_of_read {number : Nat} {text : Text} {comment : Comment}
    (hRow : Row.read number text = .comment comment) : comment.IsRead := by
  have hPath : (Row.read number text).withPath comment.line.path? = .comment comment := by
    rw [hRow]
    rfl
  exact Row.isRead_of_withPath hPath

namespace Collection

/-- All comments were read. -/
def AllRead (comments : Collection) : Prop :=
  ∀ entry ∈ comments.entries, entry.2.IsRead

variable {comments : Collection}

theorem AllRead.put (hRead : comments.AllRead) (number : Nat) {comment : Comment}
    (hComment : comment.IsRead) : (comments.put number comment).AllRead := by
  intro entry hEntry
  rcases eq_or_mem_of_mem_putEntry hEntry with rfl | hEntry
  · exact hComment
  · exact hRead entry hEntry

theorem AllRead.remove (hRead : comments.AllRead) (number : Nat) :
    (comments.remove number).AllRead := by
  intro entry hEntry
  exact hRead entry (List.mem_filter.mp hEntry).1

theorem AllRead.move (hRead : comments.AllRead) (old new : Nat) :
    (comments.move old new).AllRead := by
  rw [Collection.move]
  split
  · exact hRead
  · next comment hGet =>
    exact (hRead.remove old).put new (hRead _ (get?_eq_some_iff.mp hGet))

end Collection

/-- The comments that are taken from a document were read. -/
theorem Document.allRead_comments (d : Document) : d.comments.AllRead := by
  intro entry hEntry
  obtain ⟨n, comment, hRow, rfl⟩ := mem_entries_comments_iff.mp hEntry
  have hReads := (readAt_of_getElem?_readRows hRow).1.reads
  exact (Row.isRead_of_withPath hReads.symm).anchoredAt _

-- ---------------------------------------------------------------------------
-- Lines of data
-- ---------------------------------------------------------------------------

namespace Row

theorem dataLine?_withPath (path? : Option Path) (row : Row) :
    (row.withPath path?).dataLine? = row.dataLine?.map fun line => line.withPath path? := by
  cases row with
  | data line => rfl
  | comment comment =>
    rw [withPath, dataLine?, dataLine?]
    cases hInline : comment.isInline with
    | false => simp_all [Comment.isInline]
    | true => simp_all [Comment.isInline]

variable {number : Nat} {row : Row}

/-- The part of a row in the outline is that of its line of data. -/
theorem ReadAt.ofText?_eq (hRead : row.ReadAt number) (levelWidth : Nat) :
    OutlineRow.ofText? levelWidth row.line.text
      = row.dataLine?.map (OutlineRow.ofLine levelWidth) := by
  have hReads := hRead.reads
  generalize row.line.text = text at hReads ⊢
  rw [hReads, dataLine?_withPath, OutlineRow.ofText?_eq_read levelWidth number, Option.map_map]
  rfl

/-- A row has a path exactly if it has a line of data, and it is the path of that
line. -/
theorem ReadAt.map_path?_dataLine? (hRead : row.ReadAt number) :
    row.dataLine?.map Line.path? = row.line.path?.map some := by
  cases hPath : row.line.path? with
  | none => rw [(hRead.of_path_none hPath).1]; rfl
  | some p => rw [hRead.dataLine?_of_path_some hPath, Option.map_some, hPath]; rfl

end Row

namespace Document

/-- The lines of data of a document, in their order. -/
def dataLines (d : Document) : List Line :=
  d.readRows.filterMap Row.dataLine?

/-- What is told of the lines of data by their texts and paths can be told from
the rows. -/
theorem map_dataLines {γ : Type} (d : Document) {g : Line → γ} {f : Text × Option Path → Option γ}
    (hRow : ∀ number row, Row.ReadAt number row → row.dataLine?.map g = f row.pathed) :
    d.dataLines.map g = d.pathed.filterMap f := by
  rw [dataLines, List.map_filterMap, ← map_pathed_readRows, List.filterMap_map]
  apply List.filterMap_congr
  intro row hMem
  obtain ⟨number, hRead⟩ := d.readFrom_readRows.exists_readAt hMem
  exact hRow number row hRead

theorem filterMap_outline (d : Document) :
    d.outline.filterMap id = d.rows.filterMap (OutlineRow.ofText? d.levelWidth) := by
  rw [outline, List.filterMap_map]
  rfl

theorem map_ofLine_dataLines (d : Document) (levelWidth : Nat) :
    d.dataLines.map (OutlineRow.ofLine levelWidth)
      = d.rows.filterMap (OutlineRow.ofText? levelWidth) := by
  rw [d.map_dataLines (f := fun item => OutlineRow.ofText? levelWidth item.1)
    fun number row hRead => (hRead.ofText?_eq levelWidth).symm, ← map_fst_pathed, List.filterMap_map]
  rfl

theorem map_text_dataLines (d : Document) (levelWidth : Nat) :
    d.dataLines.map Line.text
      = d.rows.filterMap fun text => (OutlineRow.ofText? levelWidth text).map fun _ => text := by
  have hRow : ∀ number (row : Row), row.ReadAt number → row.dataLine?.map Line.text
      = (OutlineRow.ofText? levelWidth row.line.text).map fun _ => row.line.text := by
    intro number row hRead
    rw [hRead.ofText?_eq levelWidth, Option.map_map]
    cases hLine : row.dataLine? with
    | none => rfl
    | some line => rw [Row.line_of_dataLine? hLine]; rfl
  rw [d.map_dataLines (f := fun item => (OutlineRow.ofText? levelWidth item.1).map fun _ => item.1)
    hRow, ← map_fst_pathed, List.filterMap_map]
  rfl

theorem map_path?_dataLines (d : Document) :
    d.dataLines.map Line.path? = (d.paths.filterMap id).map some := by
  rw [d.map_dataLines (f := fun item => item.2.map some)
    fun number row hRead => hRead.map_path?_dataLine?, ← map_snd_pathed, List.filterMap_map,
    List.map_filterMap]
  rfl

/-- The paths in their order follow from the outline without its empty rows. -/
theorem filterMap_paths_congr {d other : Document}
    (hOutline : other.outline.filterMap id = d.outline.filterMap id) :
    other.paths.filterMap id = d.paths.filterMap id := by
  rw [paths, Outline.paths, Outline.filterMap_pathsBelow, hOutline,
    ← Outline.filterMap_pathsBelow, paths, Outline.paths]

end Document

-- ---------------------------------------------------------------------------
-- What both runs keep
-- ---------------------------------------------------------------------------

/-- Where nothing is to be found in the rows of the comments, what is found in
interleaved rows is found in the old ones. -/
theorem Interleaves.filterMap {γ : Type} {old : List Text} {entries : List (Nat × Comment)}
    {rows : List Text} (hRows : Interleaves old entries rows) {f : Text → Option γ}
    (hNone : ∀ entry ∈ entries, f entry.2.line.text = none) :
    rows.filterMap f = old.filterMap f := by
  obtain ⟨layout, rfl, rfl, hAdded⟩ := hRows
  rw [List.filterMap_map, List.filterMap_filterMap]
  apply List.filterMap_congr
  intro origin hOrigin
  cases origin with
  | kept row => rfl
  | added entry =>
    have hMem : entry ∈ layout.filterMap Origin.added? :=
      List.mem_filterMap.mpr ⟨.added entry, hOrigin, rfl⟩
    exact hNone entry (hAdded.mem_iff.mp hMem)

namespace Decisions

variable {d : Document} {comments : Collection}

/-- The rows of the comments have no data, so what is told of the data of the
annotated document is told of the extended rows. -/
theorem filterMap_rows (decisions : Decisions d comments) (hRead : comments.AllRead) {γ : Type}
    {f : Text → Option γ}
    (hNone : ∀ text, OutlineRow.ofText? d.levelWidth text = none → f text = none) :
    (d.annotate comments).document.rows.filterMap f
      = (d.extendBy decisions.carrier comments.inlineEntries).rows.filterMap f := by
  have hRows := decisions.inserted.rows
  rw [decisions.document_writeAll] at hRows
  refine hRows.filterMap fun entry hEntry => hNone _ ?_
  obtain ⟨hMem, hInline⟩ := List.mem_filter.mp (List.mem_filter.mp hEntry).1
  exact (hRead entry hMem).ofText?_eq_none (by simpa using hInline) d.levelWidth

theorem outline_extendBy (decisions : Decisions d comments)
    (hTidy : ∀ text ∈ d.rows, text.form = .data → text.Tidy) :
    (d.extendBy decisions.carrier comments.inlineEntries).outline = d.outline := by
  rw [← decisions.document_writeAll]
  exact Progress.outline_foldl_write (Document.bears_of_tidy hTidy _)

theorem levelWidth_annotate (decisions : Decisions d comments) :
    (d.annotate comments).document.levelWidth = d.levelWidth := by
  rw [decisions.frame]

/-- The outline of the annotated document is that of the document, but for rows
without data. -/
theorem outline_annotate (decisions : Decisions d comments)
    (hTidy : ∀ text ∈ d.rows, text.form = .data → text.Tidy) (hRead : comments.AllRead) :
    (d.annotate comments).document.outline.filterMap id = d.outline.filterMap id := by
  have hRows := decisions.filterMap_rows hRead (f := OutlineRow.ofText? d.levelWidth) fun _ h => h
  rw [← decisions.outline_extendBy hTidy, Document.filterMap_outline, decisions.levelWidth_annotate,
    hRows, Document.filterMap_outline]
  rfl

theorem filterMap_paths_annotate (decisions : Decisions d comments)
    (hTidy : ∀ text ∈ d.rows, text.form = .data → text.Tidy) (hRead : comments.AllRead) :
    (d.annotate comments).document.paths.filterMap id = d.paths.filterMap id :=
  Document.filterMap_paths_congr (decisions.outline_annotate hTidy hRead)

/-- The paths stay, in their order. -/
theorem map_snd_pathTable_annotate (decisions : Decisions d comments)
    (hTidy : ∀ text ∈ d.rows, text.form = .data → text.Tidy) (hRead : comments.AllRead) :
    (d.annotate comments).document.pathTable.map (·.2) = d.pathTable.map (·.2) := by
  rw [Document.map_snd_pathTable, Document.map_snd_pathTable, Document.filterMap_snd_pathed,
    Document.filterMap_snd_pathed, decisions.filterMap_paths_annotate hTidy hRead]

/-- The lines of data of the annotated document have the parts in the outline
that they had before. -/
theorem map_ofLine_annotate (decisions : Decisions d comments)
    (hTidy : ∀ text ∈ d.rows, text.form = .data → text.Tidy) (hRead : comments.AllRead) :
    (d.annotate comments).document.dataLines.map (OutlineRow.ofLine d.levelWidth)
      = d.dataLines.map (OutlineRow.ofLine d.levelWidth) := by
  rw [Document.map_ofLine_dataLines, Document.map_ofLine_dataLines, ← Document.filterMap_outline d,
    ← decisions.outline_annotate hTidy hRead, Document.filterMap_outline,
    decisions.levelWidth_annotate]

end Decisions

-- ---------------------------------------------------------------------------
-- Line by line
-- ---------------------------------------------------------------------------

/-- The new text is the old one with inline comments of the collection written
behind it, in their order. -/
def Text.WrittenOn (comments : Collection) (old new : Text) : Prop :=
  ∃ added : List (Nat × Comment), added.Sublist comments.inlineEntries ∧
    new = old ++ added.flatMap fun entry => entry.2.trailer

/-- The new line is the old one with inline comments of the collection written
behind it: what it is, its key, its depth and its path are the same. -/
structure Line.WrittenOn (comments : Collection) (levelWidth : Nat) (old new : Line) : Prop where
  text : Text.WrittenOn comments old.text new.text
  isItem : new.isItem = old.isItem
  key : new.key = old.key
  depth : new.depth levelWidth = old.depth levelWidth
  path : new.path? = old.path?

/-- The part of a line in the outline tells its kind, its key and its depth. -/
theorem OutlineRow.ofLine_eq_iff {levelWidth : Nat} {old new : Line} :
    ofLine levelWidth new = ofLine levelWidth old ↔
      new.isItem = old.isItem ∧ new.key = old.key ∧
        new.depth levelWidth = old.depth levelWidth := by
  have hKey : ∀ line : Line, line.isItem = true → line.key = Entry.itemKey :=
    fun line hItem => Entry.key_of_isItem hItem
  rw [ofLine, ofLine, OutlineRow.mk.injEq]
  cases hNew : new.isItem <;> cases hOld : old.isItem
  · simp [and_comm]
  · simp
  · simp
  · simp [hKey new hNew, hKey old hOld]

namespace Document

/-- Each extended row has what was written on it. -/
theorem forall₂_extendBy (d : Document) (carrier : Nat × Comment → Option Nat)
    (comments : Collection) :
    List.Forall₂ (Text.WrittenOn comments) d.rows (d.extendBy carrier comments.inlineEntries).rows := by
  refine List.forall₂_of_length_eq_of_get (by simp [extendBy]) fun n _ _ => ?_
  refine ⟨comments.inlineEntries.filter fun entry => carrier entry = some n, List.filter_sublist, ?_⟩
  simp [extendBy, trailersOn]

/-- Rows that correspond and have the same outline correspond as lines of data
too. -/
theorem forall₂_filterMap_ofText? {R : Text → Text → Prop} {levelWidth : Nat}
    {old new : List Text} (hRows : List.Forall₂ R old new)
    (hOutline : new.map (OutlineRow.ofText? levelWidth) = old.map (OutlineRow.ofText? levelWidth)) :
    List.Forall₂ R (old.filterMap fun text => (OutlineRow.ofText? levelWidth text).map fun _ => text)
      (new.filterMap fun text => (OutlineRow.ofText? levelWidth text).map fun _ => text) := by
  induction hRows with
  | nil => exact .nil
  | @cons oldText newText _ _ hText _ ih =>
    obtain ⟨hHead, hTail⟩ := List.cons.inj hOutline
    have hRest := ih hTail
    cases hRow : OutlineRow.ofText? levelWidth oldText with
    | none => simpa [hHead, hRow] using hRest
    | some row => simpa [hHead, hRow] using ⟨hText, hRest⟩

end Document

/-- Lists with the same image correspond by it. -/
theorem forall₂_of_map_eq {α β : Type} {f : α → β} {old new : List α}
    (hMap : new.map f = old.map f) : List.Forall₂ (fun a b => f b = f a) old new := by
  have hSame : List.Forall₂ (fun a b : β => b = a) (old.map f) (new.map f) := by
    rw [hMap]
    exact List.forall₂_same.mpr fun _ _ => rfl
  rwa [List.forall₂_map_left_iff, List.forall₂_map_right_iff] at hSame

/-- The lines of data of the annotated document have the texts that they had
before, with inline comments behind them. -/
theorem Decisions.forall₂_text_annotate {d : Document} {comments : Collection}
    (decisions : Decisions d comments)
    (hTidy : ∀ text ∈ d.rows, text.form = .data → text.Tidy) (hRead : comments.AllRead) :
    List.Forall₂ (fun old new => Text.WrittenOn comments old.text new.text)
      d.dataLines (d.annotate comments).document.dataLines := by
  have hRows := Document.forall₂_filterMap_ofText? (d.forall₂_extendBy decisions.carrier comments)
    (decisions.outline_extendBy hTidy)
  have hAdded : ∀ text, OutlineRow.ofText? d.levelWidth text = none →
      ((OutlineRow.ofText? d.levelWidth text).map fun _ => text) = none := by
    intro text hText
    rw [hText]
    rfl
  rw [← List.forall₂_map_right_iff, ← List.forall₂_map_left_iff,
    d.map_text_dataLines d.levelWidth, Document.map_text_dataLines _ d.levelWidth,
    decisions.filterMap_rows hRead hAdded]
  exact hRows

/-- **Annotation keeps the data.** Whatever comments are put into a document
whose data has no white space but spaces and tabs at its start, and none at its
end, the paths of its rows are the same afterwards, in the same order. So are its
lines of data, each with the inline comments that were written behind it and
otherwise as it was. -/
theorem annotate_keeps_data {target : Document} {comments : Collection}
    (hTidy : ∀ text ∈ target.rows, text.form = .data → text.Tidy) (hRead : comments.AllRead) :
    (target.annotate comments).document.levelWidth = target.levelWidth ∧
    (target.annotate comments).document.pathTable.map (·.2) = target.pathTable.map (·.2) ∧
    List.Forall₂ (Line.WrittenOn comments target.levelWidth)
      target.dataLines (target.annotate comments).document.dataLines := by
  have decisions := Decisions.made target comments
  have hText := decisions.forall₂_text_annotate hTidy hRead
  have hOutline := forall₂_of_map_eq (decisions.map_ofLine_annotate hTidy hRead)
  have hPath : (target.annotate comments).document.dataLines.map Line.path?
      = target.dataLines.map Line.path? := by
    rw [Document.map_path?_dataLines, Document.map_path?_dataLines,
      decisions.filterMap_paths_annotate hTidy hRead]
  have hRest := (forall₂_of_map_eq hPath).mp (fun _ _ => And.intro) hOutline
  refine ⟨decisions.levelWidth_annotate, decisions.map_snd_pathTable_annotate hTidy hRead,
    hText.mp (fun old new hLine hRest => ?_) hRest⟩
  obtain ⟨hLinePath, hLineOutline⟩ := hRest
  obtain ⟨hItem, hKey, hDepth⟩ := OutlineRow.ofLine_eq_iff.mp hLineOutline
  exact ⟨hLine, hItem, hKey, hDepth, hLinePath⟩

/-- Comments under other numbers than their own, and one that was never anchored. -/
theorem annotate_keeps_data_edited :
    ∃ (source target : Document) (loose : Comment) (comments : Collection),
      source.rows = ["a: # one".toList, "# on b".toList, "b: 2 # two".toList] ∧
      target.rows = ["a:".toList, "  - x # old".toList, "b: 1".toList] ∧
      Row.read 3 "# loose".toList = .comment loose ∧
      comments = (source.comments.move 0 7).put 3 loose ∧
      (∀ text ∈ target.rows, text.form = .data → text.Tidy) ∧ comments.AllRead ∧
      (target.annotate comments).document.rows
        = ["a: # one".toList, "  - x # old".toList, "# on b".toList, "b: 1 # two".toList] ∧
      (target.annotate comments).document.pathTable.map (·.2) = target.pathTable.map (·.2) ∧
      List.Forall₂ (Line.WrittenOn comments target.levelWidth)
        target.dataLines (target.annotate comments).document.dataLines := by
  have hLoose : Row.read 3 "# loose".toList = .comment
      { line := .ofBlank 3 "# loose".toList, body := " loose".toList, form := .full } := by decide
  have hRead := ((Document.ofRows 2 ["a: # one".toList, "# on b".toList,
    "b: 2 # two".toList]).allRead_comments.move 0 7).put 3 (Row.isRead_of_read hLoose)
  refine ⟨Document.ofRows 2 _, Document.ofRows 2 _, _, _, rfl, rfl, hLoose, rfl, by decide, hRead,
    by decide, ?_⟩
  exact (annotate_keeps_data (by decide) hRead).2

end Marginalia
