import Marginalia.Document.Comments

/-!
# Reading rows

What a document says about one of its rows follows from the row's text alone:
whether the row has data, and which part of the outline it is. The path is the
only thing that the rows above add, and the anchor of a comment the only thing
that the row below adds.

## Results

* `Row.dataLine?_read`         — the line of data by the form of the text.
* `Document.pathAt?_eq`        — a path comes from a line of data and the rows above it.
* `Document.isSome_pathAt?`    — exactly the rows with data have paths.
* `Row.ReadAt`, `Row.ReadFrom` — rows as a document reads them.
* `Document.mem_entries_comments_iff` — the comments taken from a document, and their anchors.
* `Document.anchored_of_mem_comments` — an anchor is the comment's own line, or what is right below it.
-/

namespace Marginalia

namespace Row

/-- A row has data when its text is data, or data up to a comment. -/
theorem dataLine?_read (number : Nat) (text : Text) :
    (read number text).dataLine? = match text.form with
      | .blank => none
      | .data => some (.ofText number text)
      | .full _ => none
      | .inline before _ => some (.ofData number text before.trim) := by
  unfold read
  split <;> simp_all [dataLine?, Comment.isInline]

end Row

namespace OutlineRow

/-- The number of a row has no part in the outline. -/
theorem ofText?_eq_read (levelWidth number : Nat) (text : Text) :
    ofText? levelWidth text = (Row.read number text).dataLine?.map (ofLine levelWidth) := by
  rw [ofText?, Row.dataLine?_read, Row.dataLine?_read]
  cases text.form <;> rfl

theorem isSome_ofText? (levelWidth number : Nat) (text : Text) :
    (ofText? levelWidth text).isSome = (Row.read number text).hasData := by
  rw [ofText?_eq_read levelWidth number, Option.isSome_map, Row.hasData]

theorem depth_ofLine (levelWidth : Nat) (line : Line) :
    (ofLine levelWidth line).depth = line.depth levelWidth :=
  rfl

theorem isItem_ofLine (levelWidth : Nat) (line : Line) :
    (ofLine levelWidth line).isItem = line.isItem := by
  rw [isItem, ofLine]
  cases line.isItem <;> rfl

theorem position_cons (depth : Nat) (row : OutlineRow) (above : List OutlineRow) :
    position depth (row :: above)
      = if depth ≤ row.depth then
          position depth above + if row.isItem ∧ row.depth = depth then 1 else 0
        else 0 := by
  by_cases hLe : depth ≤ row.depth
  · rw [if_pos hLe, position, List.takeWhile_cons, if_pos (by simpa using hLe), List.countP_cons,
      position]
    simp only [Bool.and_eq_true, beq_iff_eq, and_comm]
  · rw [if_neg hLe, position, List.takeWhile_cons, if_neg (by simpa using hLe)]
    rfl

end OutlineRow

namespace Outline

/-- The rows of the outline above row `n`, nearest first. -/
def rowsAbove (rows : List (Option OutlineRow)) (n : Nat) : List OutlineRow :=
  ((rows.take n).filterMap id).reverse

/-- A row gets its path from the rows above and joins them if it has data. -/
theorem pathsBelow_cons (above : List OutlineRow) (row? : Option OutlineRow)
    (rest : List (Option OutlineRow)) :
    pathsBelow above (row? :: rest)
      = (row?.map fun row => row.path above) :: pathsBelow (row?.toList ++ above) rest := by
  cases row? <;> rfl

theorem getElem?_pathsBelow (above : List OutlineRow) (rows : List (Option OutlineRow)) (n : Nat) :
    (pathsBelow above rows)[n]?
      = rows[n]?.map fun row? => row?.map fun row => row.path (rowsAbove rows n ++ above) := by
  induction rows generalizing above n with
  | nil => simp [pathsBelow]
  | cons row? rest ih =>
    cases n with
    | zero => cases row? <;> simp [pathsBelow, rowsAbove]
    | succ n => cases row? <;> simp [pathsBelow, ih, rowsAbove]

/-- Each path is found below the rows above its row. -/
theorem getElem?_paths (rows : List (Option OutlineRow)) (n : Nat) :
    (paths rows)[n]?
      = rows[n]?.map fun row? => row?.map fun row => row.path (rowsAbove rows n) := by
  rw [paths, getElem?_pathsBelow]
  simp

end Outline

namespace Document

/-- The line of data of a row as it is read, if the row has data. -/
def dataLineAt? (d : Document) (number : Nat) : Option Line :=
  (d.textAt? number).bind fun text => (Row.read number text).dataLine?

theorem dataLineAt?_of_length_le {d : Document} {n : Nat} (hLe : d.length ≤ n) :
    d.dataLineAt? n = none := by
  rw [dataLineAt?, textAt?, List.getElem?_eq_none hLe, Option.bind_none]

/-- The rows with data above row `n` as the outline lists them, nearest first. -/
def rowsAbove (d : Document) (n : Nat) : List OutlineRow :=
  Outline.rowsAbove d.outline n

theorem getElem?_outline (d : Document) (n : Nat) :
    d.outline[n]? = (d.textAt? n).map (OutlineRow.ofText? d.levelWidth) := by
  rw [outline, List.getElem?_map, textAt?]

theorem join_getElem?_outline (d : Document) (n : Nat) :
    d.outline[n]?.join = (d.dataLineAt? n).map (OutlineRow.ofLine d.levelWidth) := by
  rw [getElem?_outline, dataLineAt?]
  cases d.textAt? n with
  | none => rfl
  | some text => exact OutlineRow.ofText?_eq_read d.levelWidth n text

/-- The path of a row with data is the path that the outline finds for it below
the rows above it. -/
theorem pathAt?_eq (d : Document) (n : Nat) :
    d.pathAt? n
      = (d.dataLineAt? n).map fun line =>
          (OutlineRow.ofLine d.levelWidth line).path (d.rowsAbove n) := by
  have hRow := d.join_getElem?_outline n
  rw [pathAt?, paths, Outline.getElem?_paths, ← rowsAbove]
  cases hOutline : d.outline[n]? with
  | none =>
    rw [hOutline] at hRow
    rw [Option.map_eq_none_iff.mp hRow.symm]
    rfl
  | some row? =>
    rw [hOutline, Option.join_some] at hRow
    rw [hRow, Option.map_some, Option.join_some, Option.map_map]
    rfl

/-- Exactly the rows with data have paths. -/
theorem isSome_pathAt? (d : Document) (n : Nat) :
    (d.pathAt? n).isSome = (d.dataLineAt? n).isSome := by
  rw [pathAt?_eq, Option.isSome_map]

theorem pathAt?_eq_some_iff {d : Document} {n : Nat} {p : Path} :
    d.pathAt? n = some p ↔ d.paths[n]? = some (some p) := by
  rw [pathAt?, Option.join_eq_some_iff]

/-- The line of a path is the first row that has it. -/
theorem lineOf?_eq_some_iff {d : Document} {p : Path} {n : Nat} :
    d.lineOf? p = some n ↔ d.pathAt? n = some p ∧ ∀ k < n, d.pathAt? k ≠ some p := by
  rw [lineOf?, List.idxOf?, List.findIdx?_eq_some_iff_getElem]
  simp only [ne_eq, pathAt?_eq_some_iff, beq_iff_eq]
  constructor
  · rintro ⟨hLt, hPath, hFirst⟩
    refine ⟨List.getElem?_eq_some_iff.mpr ⟨hLt, hPath⟩, fun k hk hOther => ?_⟩
    obtain ⟨_, hOther⟩ := List.getElem?_eq_some_iff.mp hOther
    exact hFirst k hk hOther
  · rintro ⟨hPath, hFirst⟩
    obtain ⟨hLt, hPath⟩ := List.getElem?_eq_some_iff.mp hPath
    refine ⟨hLt, hPath, fun k hk hOther => hFirst k hk ?_⟩
    exact List.getElem?_eq_some_iff.mpr ⟨by omega, hOther⟩

theorem lineOf?_eq_none_iff {d : Document} {p : Path} : d.lineOf? p = none ↔ some p ∉ d.paths := by
  rw [lineOf?, List.idxOf?_eq_none_iff]

theorem lineOf?_lt {d : Document} {p : Path} {n : Nat}
    (hLine : d.lineOf? p = some n) : n < d.length := by
  have hPath := pathAt?_eq_some_iff.mp (lineOf?_eq_some_iff.mp hLine).1
  obtain ⟨hLt, -⟩ := List.getElem?_eq_some_iff.mp hPath
  rwa [length_paths] at hLt

/-- The rows with their paths. -/
def pathed (d : Document) : List (Text × Option Path) :=
  d.rows.zip d.paths

theorem length_pathed (d : Document) : d.pathed.length = d.rows.length := by
  rw [pathed, List.length_zip, length_paths, Nat.min_self]

theorem map_fst_pathed (d : Document) : d.pathed.map (·.1) = d.rows :=
  List.map_fst_zip (Nat.le_of_eq d.length_paths.symm)

theorem map_snd_pathed (d : Document) : d.pathed.map (·.2) = d.paths :=
  List.map_snd_zip (Nat.le_of_eq d.length_paths)

theorem filterMap_snd_pathed (d : Document) : d.pathed.filterMap (·.2) = d.paths.filterMap id := by
  rw [← map_snd_pathed, List.filterMap_map]
  rfl

/-- The paths of the table are those of the rows, in the same order. -/
theorem map_snd_pathTable (d : Document) : d.pathTable.map (·.2) = d.pathed.filterMap (·.2) := by
  have hTable : d.pathTable.map (·.2) = (d.paths.zipIdx.map (·.1)).filterMap id := by
    rw [pathTable, List.map_filterMap, List.filterMap_map]
    congr 1
    funext entry
    cases h : entry.1 <;> simp [h]
  rw [hTable, filterMap_snd_pathed]
  congr 1
  exact List.zipIdx_map_fst 0 d.paths

end Document

-- ---------------------------------------------------------------------------
-- Rows as they are read
-- ---------------------------------------------------------------------------

namespace Row

/-- The row is what its document reads under this number: its text as it is
read, with a path exactly if it has data. -/
structure ReadAt (number : Nat) (row : Row) : Prop where
  reads : row = (read number row.line.text).withPath row.line.path?
  addressed : row.hasData = row.line.path?.isSome

/-- The text of a row with its path. -/
def pathed (row : Row) : Text × Option Path :=
  (row.line.text, row.line.path?)

variable {number : Nat} {row : Row}

theorem ReadAt.number_eq (hRead : row.ReadAt number) : row.line.number = number := by
  rw [hRead.reads, line_withPath]
  exact number_read number row.line.text

/-- A row without a path is a comment with its own row, and its text has no part
in any outline. -/
theorem ReadAt.of_path_none (hRead : row.ReadAt number) (hPath : row.line.path? = none) :
    row.dataLine? = none ∧ (∃ comment, row = .comment comment ∧ comment.isInline = false) ∧
      ∀ levelWidth, OutlineRow.ofText? levelWidth row.line.text = none := by
  have hData : row.hasData = false := by rw [hRead.addressed, hPath]; rfl
  have hLine : row.dataLine? = none := by
    exact Option.not_isSome_iff_eq_none.mp (Bool.eq_false_iff.mp hData)
  refine ⟨hLine, ?_, fun levelWidth => ?_⟩
  · cases row with
    | data l => cases hLine
    | comment c =>
      refine ⟨c, rfl, Bool.eq_false_iff.mpr fun hInline => ?_⟩
      rw [dataLine?, if_pos hInline] at hLine
      cases hLine
  · have hSome := OutlineRow.isSome_ofText? levelWidth number row.line.text
    rw [← hasData_withPath row.line.path?, ← hRead.reads, hData] at hSome
    exact Option.not_isSome_iff_eq_none.mp (Bool.eq_false_iff.mp hSome)

/-- A row with a path has its line as data. -/
theorem ReadAt.dataLine?_of_path_some (hRead : row.ReadAt number) {p : Path}
    (hPath : row.line.path? = some p) :
    row.dataLine? = some row.line := by
  have hData : row.hasData = true := by rw [hRead.addressed, hPath]; rfl
  obtain ⟨l, hLine⟩ := Option.isSome_iff_exists.mp hData
  rw [hLine, line_of_dataLine? hLine]

/-- A comment with its own row has no path. -/
theorem ReadAt.path?_of_not_inline {comment : Comment} (hRead : (Row.comment comment).ReadAt number)
    (hInline : comment.isInline = false) : comment.line.path? = none := by
  have hAddressed := hRead.addressed
  rw [hasData, dataLine?, hInline] at hAddressed
  exact Option.not_isSome_iff_eq_none.mp (Bool.eq_false_iff.mp hAddressed.symm)

/-- An inline comment stands behind the data of its row. -/
theorem ReadAt.form_of_inline {comment : Comment} (hRead : (Row.comment comment).ReadAt number)
    (hInline : comment.isInline = true) :
    ∃ before, comment.line.text.form = .inline before comment.body := by
  have hReads : Row.comment comment = (read number comment.line.text).withPath comment.line.path? :=
    hRead.reads
  cases hForm : comment.line.text.form with
  | blank =>
    rw [read, hForm] at hReads
    rw [Row.comment.inj hReads] at hInline
    cases hInline
  | data =>
    rw [read, hForm] at hReads
    cases hReads
  | full body =>
    rw [read, hForm] at hReads
    rw [Row.comment.inj hReads] at hInline
    cases hInline
  | inline before body =>
    rw [read, hForm] at hReads
    have hBody : comment.body = body := by rw [Row.comment.inj hReads]
    exact ⟨before, by rw [hBody]⟩

/-- The rows are what a document reads from number `k` on. -/
def ReadFrom (k : Nat) (rows : List Row) : Prop :=
  ∀ (i : Nat) (row : Row), rows[i]? = some row → row.ReadAt (k + i)

theorem ReadFrom.head {k : Nat} {row : Row} {rest : List Row} (hRead : ReadFrom k (row :: rest)) :
    row.ReadAt k :=
  hRead 0 row rfl

theorem ReadFrom.tail {k : Nat} {row : Row} {rest : List Row} (hRead : ReadFrom k (row :: rest)) :
    ReadFrom (k + 1) rest := by
  intro i other hOther
  have h := hRead (i + 1) other hOther
  rwa [show k + (i + 1) = k + 1 + i by omega] at h

theorem ReadFrom.exists_readAt {k : Nat} {rows : List Row} (hRead : ReadFrom k rows) {row : Row}
    (hRow : row ∈ rows) : ∃ number, row.ReadAt number := by
  obtain ⟨i, hi⟩ := List.mem_iff_getElem?.mp hRow
  exact ⟨k + i, hRead i row hi⟩

end Row

namespace Document

theorem readAt_of_getElem?_readRows {d : Document} {n : Nat} {row : Row}
    (hRow : d.readRows[n]? = some row) :
    row.ReadAt n ∧ d.pathed[n]? = some row.pathed := by
  have hRowAt : d.rowAt? n = some row := hRow
  rw [rowAt?_eq] at hRowAt
  obtain ⟨text, hText, rfl⟩ := Option.map_eq_some_iff.mp hRowAt
  have hLine : ((Row.read n text).withPath (d.pathAt? n)).line
      = (Row.read n text).line.withPath (d.pathAt? n) := Row.line_withPath _ _
  have hPath : ((Row.read n text).withPath (d.pathAt? n)).line.path? = d.pathAt? n := by
    rw [hLine]
    rfl
  have hRead : ((Row.read n text).withPath (d.pathAt? n)).line.text = text := by
    rw [hLine]
    exact Row.text_read n text
  refine ⟨⟨by rw [hRead, hPath], ?_⟩, ?_⟩
  · rw [Row.hasData_withPath, hPath, isSome_pathAt?, dataLineAt?, hText]
    rfl
  · rw [Row.pathed, hRead, hPath, pathed, List.getElem?_zip_eq_some]
    refine ⟨hText, ?_⟩
    obtain ⟨hLt, -⟩ := List.getElem?_eq_some_iff.mp hText
    rw [pathAt?]
    have hLt : n < d.paths.length := by rwa [length_paths]
    simp [hLt]

theorem readFrom_readRows (d : Document) : Row.ReadFrom 0 d.readRows := by
  intro i row hRow
  rw [Nat.zero_add]
  exact (readAt_of_getElem?_readRows hRow).1

theorem map_pathed_readRows (d : Document) : d.readRows.map Row.pathed = d.pathed := by
  apply List.ext_getElem?
  intro n
  rw [List.getElem?_map]
  cases hRow : d.readRows[n]? with
  | none =>
    rw [List.getElem?_eq_none_iff, length_readRows] at hRow
    rw [List.getElem?_eq_none (by rw [length_pathed]; exact hRow)]
    rfl
  | some row => rw [(readAt_of_getElem?_readRows hRow).2]; rfl

/-- A row has a path exactly if it has data. -/
theorem isSome_of_mem_pathed {d : Document} {item : Text × Option Path} (hItem : item ∈ d.pathed) :
    item.2.isSome = (Row.read 0 item.1).hasData := by
  rw [← map_pathed_readRows] at hItem
  obtain ⟨row, hRow, rfl⟩ := List.mem_map.mp hItem
  obtain ⟨n, hn⟩ := List.mem_iff_getElem?.mp hRow
  obtain ⟨hReads, hAddressed⟩ := (readAt_of_getElem?_readRows hn).1
  rw [Row.pathed, ← OutlineRow.isSome_ofText? 0 0, OutlineRow.isSome_ofText? 0 n,
    ← Row.hasData_withPath row.line.path?, ← hReads, hAddressed]

theorem pathAt?_of_getElem?_readRows {d : Document} {n : Nat} {row : Row}
    (hRow : d.readRows[n]? = some row) :
    d.pathAt? n = row.line.path? := by
  have hPathed := (readAt_of_getElem?_readRows hRow).2
  have hPath : d.paths[n]? = some row.line.path? := by
    rw [← map_snd_pathed, List.getElem?_map, hPathed]
    rfl
  rw [pathAt?, hPath, Option.join_some]

theorem textAt?_of_getElem?_readRows {d : Document} {n : Nat} {row : Row}
    (hRow : d.readRows[n]? = some row) : d.textAt? n = some row.line.text :=
  (List.getElem?_zip_eq_some.mp (readAt_of_getElem?_readRows hRow).2).1

theorem getElem?_pathed {d : Document} {n : Nat} {row : Row} (hRow : d.readRows[n]? = some row) :
    d.pathed[n]? = some (row.line.text, d.pathAt? n) := by
  rw [(readAt_of_getElem?_readRows hRow).2, pathAt?_of_getElem?_readRows hRow]
  rfl

-- ---------------------------------------------------------------------------
-- Comments as they are taken
-- ---------------------------------------------------------------------------

theorem mem_commentsFrom_iff {k : Nat} {rows : List Row} {entry : Nat × Comment} :
    entry ∈ commentsFrom k rows ↔ ∃ i comment, rows[i]? = some (.comment comment) ∧
      entry = (k + i, comment.anchoredAt (comment.anchorBefore rows[i + 1]?)) := by
  induction rows generalizing k with
  | nil => simp [commentsFrom]
  | cons row rest ih =>
    have hRest : entry ∈ commentsFrom (k + 1) rest ↔ ∃ i comment,
        (row :: rest)[i + 1]? = some (.comment comment) ∧
        entry = (k + (i + 1),
          comment.anchoredAt (comment.anchorBefore (row :: rest)[i + 1 + 1]?)) := by
      rw [ih]
      simp only [List.getElem?_cons_succ, Nat.add_assoc, Nat.add_comm 1]
    have hSplit : (∃ i comment, (row :: rest)[i]? = some (.comment comment) ∧
          entry = (k + i, comment.anchoredAt (comment.anchorBefore (row :: rest)[i + 1]?)))
        ↔ (∃ comment, row = .comment comment ∧
            entry = (k, comment.anchoredAt (comment.anchorBefore rest.head?)))
          ∨ entry ∈ commentsFrom (k + 1) rest := by
      rw [hRest]
      constructor
      · rintro ⟨i, comment, hRow, hEntry⟩
        cases i with
        | zero =>
          refine .inl ⟨comment, Option.some.inj hRow, ?_⟩
          rw [hEntry, List.getElem?_cons_succ, List.head?_eq_getElem?]
          rfl
        | succ i => exact .inr ⟨i, comment, hRow, hEntry⟩
      · rintro (⟨comment, rfl, rfl⟩ | ⟨i, comment, hRow, hEntry⟩)
        · refine ⟨0, comment, rfl, ?_⟩
          rw [List.getElem?_cons_succ, List.head?_eq_getElem?]
          rfl
        · exact ⟨i + 1, comment, hRow, hEntry⟩
    rw [hSplit]
    cases row with
    | data line => simp [commentsFrom, Row.comment?]
    | comment comment => simp [commentsFrom, Row.comment?]

/-- Each comment row gives one comment, under its number and with the row below
it for its anchor. -/
theorem mem_entries_comments_iff {d : Document} {entry : Nat × Comment} :
    entry ∈ d.comments.entries ↔ ∃ n comment, d.readRows[n]? = some (.comment comment) ∧
      entry = (n, comment.anchoredAt (comment.anchorBefore d.readRows[n + 1]?)) := by
  rw [comments, mem_commentsFrom_iff]
  simp only [Nat.zero_add]

/-- A comment is kept under the number of its line, with the text of its row. -/
theorem line_of_mem_comments {d : Document} {n : Nat} {comment : Comment}
    (hEntry : (n, comment) ∈ d.comments.entries) :
    comment.line.number = n ∧ d.textAt? n = some comment.line.text := by
  obtain ⟨k, read, hRow, hEq⟩ := mem_entries_comments_iff.mp hEntry
  obtain ⟨rfl, rfl⟩ := Prod.mk.inj hEq
  exact ⟨(readAt_of_getElem?_readRows hRow).1.number_eq, textAt?_of_getElem?_readRows hRow⟩

/-- An inline comment stands in a row with a path. -/
theorem isSome_pathAt?_of_inline {d : Document} {n : Nat} {comment : Comment}
    (hRow : d.readRows[n]? = some (.comment comment)) (hInline : comment.isInline = true) :
    (d.pathAt? n).isSome := by
  rw [pathAt?_of_getElem?_readRows hRow, ← (readAt_of_getElem?_readRows hRow).1.addressed, Row.hasData,
    Row.dataLine?, if_pos hInline]
  rfl

/-- How the comment on line `n` of a document is anchored, and those that its anchor
leads to. -/
inductive Anchored (d : Document) : Nat → Comment → Prop
  /-- At its own line of data. -/
  | own {n : Nat} {comment : Comment} (hAnchor : comment.anchor? = some (.data comment.line))
      (hNumber : comment.line.number = n) (hText : d.textAt? n = some comment.line.text)
      (hPath : d.pathAt? n = comment.line.path?) (hData : (d.pathAt? n).isSome) : Anchored d n comment
  /-- At the line of data right below. -/
  | line {n : Nat} {comment : Comment} (line : Line) (hAnchor : comment.anchor? = some (.data line))
      (hNone : d.pathAt? n = none) (hNumber : line.number = n + 1)
      (hText : d.textAt? (n + 1) = some line.text) (hPath : d.pathAt? (n + 1) = line.path?)
      (hData : (d.pathAt? (n + 1)).isSome) : Anchored d n comment
  /-- At the comment right below, which is no inline comment. -/
  | comment {n : Nat} {comment : Comment} (below : Comment)
      (hAnchor : comment.anchor? = some (.comment below.line)) (hNone : d.pathAt? n = none)
      (hBelow : (n + 1, below) ∈ d.comments.entries) (hInline : below.isInline = false)
      (hBelowNone : d.pathAt? (n + 1) = none) (hRest : Anchored d (n + 1) below) : Anchored d n comment
  /-- At the end of the document. -/
  | bottom {n : Nat} {comment : Comment} (hAnchor : comment.anchor? = some .bottom)
      (hNone : d.pathAt? n = none) (hLast : d.length = n + 1) : Anchored d n comment

/-- **How comments are anchored.** An inline comment is anchored at its own line, and
any other one at what is right below it. By induction on the rows below, of which the
first tells the anchor. -/
theorem anchored_of_mem_comments {d : Document} {n : Nat} {comment : Comment}
    (hEntry : (n, comment) ∈ d.comments.entries) : d.Anchored n comment := by
  induction hLeft : d.readRows.length - n using Nat.strongRecOn generalizing n comment with
  | ind left ih =>
    obtain ⟨hNumber, hText⟩ := line_of_mem_comments hEntry
    obtain ⟨k, read, hRow, hEq⟩ := mem_entries_comments_iff.mp hEntry
    obtain ⟨rfl, rfl⟩ := Prod.mk.inj hEq
    have hLt := (List.getElem?_eq_some_iff.mp hRow).1
    have hRead := (readAt_of_getElem?_readRows hRow).1
    have hPath := pathAt?_of_getElem?_readRows hRow
    cases hInline : read.isInline with
    | true =>
      refine .own ?_ hNumber hText hPath (isSome_pathAt?_of_inline hRow hInline)
      rw [Comment.anchoredAt, Comment.anchorBefore, if_pos hInline]
    | false =>
      have hNone : d.pathAt? n = none := hPath.trans (hRead.path?_of_not_inline hInline)
      have hAnchor : (read.anchoredAt (read.anchorBefore d.readRows[n + 1]?)).anchor?
          = some (.above d.readRows[n + 1]?) := by
        rw [Comment.anchoredAt, Comment.anchorBefore, if_neg (by rw [hInline]; decide)]
      cases hNext : d.readRows[n + 1]? with
      | none =>
        rw [hNext] at hAnchor
        rw [List.getElem?_eq_none_iff] at hNext
        rw [length_readRows] at hLt hNext
        exact .bottom hAnchor hNone (Nat.le_antisymm hNext hLt)
      | some next =>
        have hNextRead := (readAt_of_getElem?_readRows hNext).1
        have hNextPath := pathAt?_of_getElem?_readRows hNext
        rw [hNext, Anchor.above] at hAnchor
        cases hOwn : next.line.path? with
        | some p =>
          rw [hNextRead.dataLine?_of_path_some hOwn] at hAnchor
          refine .line _ hAnchor hNone hNextRead.number_eq (textAt?_of_getElem?_readRows hNext)
            hNextPath ?_
          rw [hNextPath, hOwn]
          rfl
        | none =>
          obtain ⟨hData, ⟨below, rfl, hBelow⟩, -⟩ := hNextRead.of_path_none hOwn
          rw [hData] at hAnchor
          have hBelowEntry := mem_entries_comments_iff.mpr ⟨n + 1, below, hNext, rfl⟩
          exact .comment (below.anchoredAt _) hAnchor hNone hBelowEntry hBelow
            (hNextPath.trans hOwn) (ih _ (by omega) hBelowEntry rfl)

/-- An inline comment is anchored at its own row. -/
theorem anchorPath?_of_inline {d : Document} {entry : Nat × Comment}
    (hEntry : entry ∈ d.comments.inlineEntries) :
    entry.2.anchorPath? = d.pathAt? entry.1 ∧ (d.pathAt? entry.1).isSome := by
  obtain ⟨hMem, hInline⟩ := List.mem_filter.mp hEntry
  obtain ⟨n, comment, hRow, rfl⟩ := mem_entries_comments_iff.mp hMem
  have hInline : comment.isInline = true := hInline
  refine ⟨?_, isSome_pathAt?_of_inline hRow hInline⟩
  rw [pathAt?_of_getElem?_readRows hRow, Comment.anchorBefore, if_pos hInline]
  rfl

end Document

end Marginalia
