import Marginalia.Proofs.Extension
import Marginalia.Proofs.Insertion

/-!
# Annotation as a merge

The comments taken from one document are put into another step by step, and
every step changes the document that the next one looks at. What comes out can
be said at once all the same: the rows of the target, with the blocks of the
source woven in above the owners of their paths, and with the trailers of the
source behind those owners.

In the run of writes the outline stays what it was as long as the rows that
carry comments can be extended, so every comment finds the carrier that the
target has for it. The run of insertions starts from there.

## Results

* `Progress.carries_of_bears`   — the run of writes finds the carriers of the target.
* `Document.trailersOn_inlineEntries` — what it writes on a row are the trailers of the row's path.
* `Document.document_complete`  — both runs together are a merge, if the carriers can be extended.
* `Document.mem_orphans_complete_iff` — the comments left out are those at paths that the target lacks.
* `annotate_eq_merge`           — annotation is a merge for every target with tidy data.
-/

namespace Marginalia

namespace Document

-- ---------------------------------------------------------------------------
-- The run of writes
-- ---------------------------------------------------------------------------

theorem outline_extendAt {d : Document} {n : Nat} (hExt : ∀ text ∈ d.textAt? n, text.Extensible)
    (body : Text) :
    (d.extendAt n (' ' :: marker :: body)).outline = d.outline := by
  apply List.ext_getElem?
  intro i
  rw [outline, outline, List.getElem?_map, List.getElem?_map, extendAt, List.getElem?_modify]
  by_cases hi : n = i
  · subst hi
    cases hText : d.rows[n]? with
    | none => rfl
    | some text =>
      have h := OutlineRow.ofText?_extend (hExt text hText) d.levelWidth body
      simpa using h
  · simp [hi]

/-- The paths of a document and their owners follow from its outline. -/
theorem paths_congr {d other : Document} (hOutline : other.outline = d.outline) :
    other.paths = d.paths := by
  rw [paths, hOutline, paths]

theorem lineOf?_congr {d other : Document} (hOutline : other.outline = d.outline) :
    other.lineOf? = d.lineOf? := by
  funext p
  rw [lineOf?, paths_congr hOutline, lineOf?]

theorem ownPaths_congr {d other : Document} (hOutline : other.outline = d.outline) :
    other.ownPaths = d.ownPaths := by
  rw [ownPaths, paths_congr hOutline, lineOf?_congr hOutline, ownPaths]

end Document

namespace Progress

/-- The rows that carry the comments can be extended. -/
def Bears (start : Progress) (entries : List (Nat × Comment)) : Prop :=
  ∀ entry ∈ entries, ∀ n ∈ start.carrier? entry.2,
    ∀ text ∈ start.document.textAt? n, text.Extensible

theorem carrier?_congr {progress other : Progress}
    (hOutline : other.document.outline = progress.document.outline) (comment : Comment) :
    other.carrier? comment = progress.carrier? comment := by
  rw [carrier?, Document.lineOf?_congr hOutline, carrier?]

/-- One write leaves the outline alone. -/
theorem Bears.outline_write {start : Progress} {entry : Nat × Comment} {rest : List (Nat × Comment)}
    (hBears : start.Bears (entry :: rest)) :
    (start.write entry).document.outline = start.document.outline := by
  cases hCarrier : start.carrier? entry.2 with
  | none => rw [write_of_none hCarrier]
  | some n =>
    rw [write_of_some hCarrier]
    exact Document.outline_extendAt (hBears entry List.mem_cons_self n hCarrier) entry.2.body

/-- After one write the rows that carry the others can still be extended. -/
theorem Bears.write {start : Progress} {entry : Nat × Comment} {rest : List (Nat × Comment)}
    (hBears : start.Bears (entry :: rest)) : (start.write entry).Bears rest := by
  intro other hOther n hn text hText
  rw [carrier?_congr hBears.outline_write] at hn
  have hBefore := hBears other (List.mem_cons_of_mem entry hOther) n hn
  cases hCarrier : start.carrier? entry.2 with
  | none =>
    rw [write_of_none hCarrier] at hText
    exact hBefore text hText
  | some number =>
    rw [write_of_some hCarrier] at hText
    have hRow : (start.document.rows.modify number (· ++ entry.2.trailer))[n]? = some text := hText
    rw [List.getElem?_modify] at hRow
    obtain ⟨old, hOld, rfl⟩ := Option.map_eq_some_iff.mp hRow
    -- two comments may share a carrier: the second one then follows the first
    by_cases hEq : number = n
    · rw [if_pos hEq]
      exact (hBefore old hOld).extend entry.2.body
    · rw [if_neg hEq]
      exact hBefore old hOld

/-- **The run of writes.** Each comment finds the carrier that it has at the
start. -/
theorem carries_of_bears {start : Progress} {entries : List (Nat × Comment)}
    (hBears : start.Bears entries) :
    Carries start (fun entry => start.carrier? entry.2) entries := by
  induction entries generalizing start with
  | nil =>
    intro before entry after hEq
    simp at hEq
  | cons entry rest ih =>
    intro before other after hEq
    cases before with
    | nil =>
      obtain ⟨rfl, -⟩ := List.cons.inj hEq
      rfl
    | cons first more =>
      obtain ⟨rfl, hRest⟩ := List.cons.inj hEq
      have h := ih hBears.write more other after hRest
      exact h.trans (carrier?_congr hBears.outline_write other.2)

theorem outline_foldl_write {start : Progress} {entries : List (Nat × Comment)}
    (hBears : start.Bears entries) :
    (entries.foldl Progress.write start).document.outline = start.document.outline := by
  induction entries generalizing start with
  | nil => rfl
  | cons entry rest ih => rw [List.foldl_cons, ih hBears.write, hBears.outline_write]

end Progress

-- ---------------------------------------------------------------------------
-- Trailers
-- ---------------------------------------------------------------------------

namespace Row

/-- An inline comment adds the trailer of its row. -/
theorem ReadAt.trailer_eq {number : Nat} {row : Row} (hRead : row.ReadAt number) :
    row.line.text.trailer = (row.comment?.filter (·.isInline)).elim [] Comment.trailer := by
  have hReads := hRead.reads
  generalize row.line.text = text at hReads ⊢
  rw [hReads, Text.trailer, read]
  cases text.form <;> rfl

end Row

namespace Document

/-- Where the target carries an inline comment: on the first row with the path
of its anchor. -/
def carrierFor (target : Document) (entry : Nat × Comment) : Option Nat :=
  entry.2.anchorPath?.bind target.lineOf?

/-- One more row adds its trailer where its path is owned. -/
theorem trailersOn_commentsFrom_cons (target : Document) {k : Nat} {row : Row} (hRow : row.ReadAt k)
    (rest : List Row) (n : Nat) :
    trailersOn target.carrierFor ((commentsFrom k (row :: rest)).filter (·.2.isInline)) n
      = (if row.line.path?.bind target.lineOf? = some n then row.line.text.trailer else [])
        ++ trailersOn target.carrierFor ((commentsFrom (k + 1) rest).filter (·.2.isInline)) n := by
  rw [hRow.trailer_eq]
  cases row with
  | data line => simp [commentsFrom, Row.comment?]
  | comment comment =>
    cases hInline : comment.isInline with
    | false =>
      have hPath : (Row.comment comment).line.path? = none := hRow.path?_of_not_inline hInline
      have hSkip : (comment.anchoredAt (comment.anchorBefore rest.head?)).isInline = false :=
        hInline
      rw [commentsFrom, Row.comment?, List.filter_cons_of_neg (by simp [hSkip]), hPath]
      rfl
    | true =>
      have hTake : (comment.anchoredAt (comment.anchorBefore rest.head?)).isInline = true := hInline
      have hCarrier : target.carrierFor (k, comment.anchoredAt (comment.anchorBefore rest.head?))
          = comment.line.path?.bind target.lineOf? := by
        rw [carrierFor, Comment.anchorBefore, if_pos hInline]
        rfl
      rw [commentsFrom, Row.comment?, List.filter_cons_of_pos (by simp [hTake]), trailersOn_cons,
        hCarrier]
      simp only [Option.filter_some, hInline, if_true, Option.elim_some]
      rfl

theorem trailersOn_commentsFrom (target : Document) {k : Nat} {rows : List Row}
    (hRead : Row.ReadFrom k rows) (n : Nat) :
    trailersOn target.carrierFor ((commentsFrom k rows).filter (·.2.isInline)) n
      = ((rows.map Row.pathed).filter fun row => row.2.bind target.lineOf? = some n).flatMap
          fun row => row.1.trailer := by
  induction rows generalizing k with
  | nil => rfl
  | cons row rest ih =>
    rw [trailersOn_commentsFrom_cons target hRead.head, ih hRead.tail, List.map_cons,
      List.filter_cons, Row.pathed]
    by_cases hCarrier : row.line.path?.bind target.lineOf? = some n
    · simp [hCarrier]
    · simp [hCarrier]

/-- A row carries the trailers of its path if it owns it, and no others. -/
theorem trailersOn_inlineEntries (source target : Document) (n : Nat) :
    trailersOn target.carrierFor source.comments.inlineEntries n
      = target.ownPaths[n]?.join.elim [] source.trailersAt := by
  have hOwn : ∀ p? : Option Path, p?.bind target.lineOf? = some n
      ↔ ∃ p, p? = some p ∧ target.ownPaths[n]?.join = some p := by
    intro p?
    simp only [Option.bind_eq_some_iff, Option.join_eq_some_iff, getElem?_ownPaths_iff]
  show trailersOn target.carrierFor ((commentsFrom 0 source.readRows).filter (·.2.isInline)) n = _
  rw [trailersOn_commentsFrom target source.readFrom_readRows n, map_pathed_readRows]
  -- a row without a path of its own carries nothing, though another row may own
  -- the path that it has
  cases hPath : target.ownPaths[n]?.join with
  | none =>
    rw [List.filter_eq_nil_iff.mpr fun row _ => by simp [hOwn, hPath]]
    rfl
  | some p =>
    rw [Option.elim_some, trailersAt]
    congr 1
    apply List.filter_congr
    intro row _
    simp [hOwn, hPath]

end Document

-- ---------------------------------------------------------------------------
-- The merge
-- ---------------------------------------------------------------------------

/-- The rows of `target` in their order, and with each row that owns its path
what `source` has for that path: the rows of its blocks, from the lowest block
to the highest, above the row, and its trailers, in the order of their rows,
behind it. At the end stand the rows of the block that ends `source`. -/
def mergedRows (source target : Document) : List Text :=
  ((target.rows.zip target.ownPaths).flatMap fun row =>
    match row.2 with
    | some p => source.blockRows (some p) ++ [row.1 ++ source.trailersAt p]
    | none => [row.1]) ++ source.blockRows none

/-- The merged rows are woven from rows with their trailers. -/
theorem mergedRows_eq_weave (source target : Document) :
    mergedRows source target = weave source.blockRows ((target.rows.zip target.ownPaths).map
      fun row => (row.1 ++ row.2.elim [] source.trailersAt, row.2)) := by
  rw [mergedRows, weave, weaveRows, List.flatMap_map]
  congr 1
  apply List.flatMap_congr
  rintro ⟨text, own?⟩ -
  cases own? with
  | none => simp
  | some p => rfl

namespace Document

/-- The rows extended by the trailers, with the blocks woven in, are the merged
rows. -/
theorem weaveIn_extendBy {source target : Document}
    (hOutline : (target.extendBy target.carrierFor source.comments.inlineEntries).outline
      = target.outline) :
    (target.extendBy target.carrierFor source.comments.inlineEntries).weaveIn source.blockRows
      = { target with rows := mergedRows source target } := by
  have hZip : (target.extendBy target.carrierFor source.comments.inlineEntries).rows.zip
        target.ownPaths
      = (target.rows.zip target.ownPaths).map
          fun row => (row.1 ++ row.2.elim [] source.trailersAt, row.2) := by
    apply List.ext_getElem?
    intro n
    simp only [List.getElem?_map, List.zip, List.getElem?_zipWith, extendBy, List.getElem?_mapIdx,
      trailersOn_inlineEntries]
    cases target.rows[n]? <;> cases target.ownPaths[n]? <;> rfl
  rw [weaveIn, ownPaths_congr hOutline, hZip, ← mergedRows_eq_weave]
  rfl

/-- The path of the first row with data at or below row `n`, if there is one. -/
def restsOn? (d : Document) (n : Nat) : Option Path :=
  (d.paths.drop n).findSome? id

theorem restsOn?_of_pathAt? {d : Document} {n : Nat} {p : Path} (hPath : d.pathAt? n = some p) :
    d.restsOn? n = some p := by
  obtain ⟨hLt, hAt⟩ := List.getElem?_eq_some_iff.mp (pathAt?_eq_some_iff.mp hPath)
  rw [restsOn?, List.drop_eq_getElem_cons hLt, hAt]
  rfl

theorem findSome?_drop_pathed (d : Document) (n : Nat) :
    (d.pathed.drop n).findSome? (·.2) = d.restsOn? n := by
  rw [restsOn?, ← map_snd_pathed, ← List.map_drop, List.findSome?_map]
  rfl

section Runs

variable {source target : Document}
  (hBears : Progress.Bears { document := target } source.comments.inlineEntries)

include hBears

theorem outline_writeAll :
    (Progress.writeAll target source.comments).document.outline = target.outline :=
  Progress.outline_foldl_write hBears

/-- The inline comments left out are those at paths that the target lacks. -/
theorem mem_orphans_writeAll_iff (n : Nat) :
    n ∈ (Progress.writeAll target source.comments).orphans
      ↔ ∃ p, source.pathAt? n = some p ∧ target.lineOf? p = none ∧
          ∃ entry ∈ source.comments.inlineEntries, entry.1 = n := by
  rw [Progress.writeAll, Progress.foldl_write (Progress.carries_of_bears hBears)]
  simp only [List.append_nil, List.mem_reverse, List.mem_map, List.mem_filter,
    Option.isNone_iff_eq_none]
  constructor
  · rintro ⟨entry, ⟨hEntry, hCarrier⟩, rfl⟩
    obtain ⟨hAnchor, hSome⟩ := anchorPath?_of_inline hEntry
    obtain ⟨p, hPath⟩ := Option.isSome_iff_exists.mp hSome
    rw [Progress.carrier?, hAnchor, hPath, Option.bind_some] at hCarrier
    exact ⟨p, hPath, hCarrier, entry, hEntry, rfl⟩
  · rintro ⟨p, hPath, hLine, entry, hEntry, rfl⟩
    refine ⟨entry, ⟨hEntry, ?_⟩, rfl⟩
    rw [Progress.carrier?, (anchorPath?_of_inline hEntry).1, hPath, Option.bind_some, hLine]

/-- The run of insertions goes on from the run of writes. -/
theorem stands_complete :
    Progress.Stands (Progress.writeAll target source.comments).document
      (Progress.writeAll target source.comments) 0 source.pathed
      (Progress.complete target source.comments) := by
  apply source.stands_rowEntries
  intro n hn
  obtain ⟨p, hPath, -⟩ := (mem_orphans_writeAll_iff hBears n).mp hn
  rw [hPath, Option.isSome_some]

/-- **Both runs are a merge**, as long as the rows that carry inline comments
can be extended. -/
theorem document_complete :
    (Progress.complete target source.comments).document
      = { target with rows := mergedRows source target } := by
  have hWrites : (Progress.writeAll target source.comments).document
      = target.extendBy target.carrierFor source.comments.inlineEntries := by
    rw [Progress.writeAll, Progress.foldl_write (Progress.carries_of_bears hBears)]
    rfl
  have hOutline := outline_writeAll hBears
  have hStands := stands_complete hBears
  rw [hWrites] at hOutline
  rw [hStands.document, hWrites]
  exact weaveIn_extendBy hOutline

/-- A comment is left out exactly when it rests on a path that the target lacks. -/
theorem mem_orphans_complete_iff {entry : Nat × Comment}
    (hEntry : entry ∈ source.comments.entries) :
    entry.1 ∈ (Progress.complete target source.comments).orphans
      ↔ target.Lacks (source.restsOn? entry.1) := by
  have hOrphans := (stands_complete hBears).orphans entry.1
  have hLacks : ∀ anchor?, (Progress.writeAll target source.comments).document.Lacks anchor?
      ↔ target.Lacks anchor? := by
    intro anchor?
    rw [Lacks, lineOf?_congr (outline_writeAll hBears), Lacks]
  rw [hOrphans, mem_orphans_writeAll_iff hBears]
  simp only [Progress.Lost, Nat.zero_add, exists_eq_left', findSome?_drop_pathed, hLacks]
  obtain ⟨n, comment, hRow, rfl⟩ := mem_entries_comments_iff.mp hEntry
  rw [getElem?_pathed hRow]
  cases hInline : comment.isInline with
  | true =>
    -- an inline comment is decided by the writes: its row has a path, so no
    -- insertion has this number
    have hMem : (n, comment.anchoredAt (comment.anchorBefore source.readRows[n + 1]?))
        ∈ source.comments.inlineEntries := List.mem_filter.mpr ⟨hEntry, hInline⟩
    obtain ⟨p, hPath⟩ := Option.isSome_iff_exists.mp (anchorPath?_of_inline hMem).2
    rw [restsOn?_of_pathAt? hPath, hPath]
    constructor
    · rintro (⟨q, hq, hLine, -⟩ | ⟨⟨text, hText⟩, -⟩)
      · exact ⟨q, hq, hLine⟩
      · cases hText
    · rintro ⟨q, hq, hLine⟩
      exact .inl ⟨q, hq, hLine, _, hMem, rfl⟩
  | false =>
    -- the others are decided by the insertions: their rows have no paths, so no
    -- write has their numbers
    have hPath : source.pathAt? n = none := by
      rw [pathAt?_of_getElem?_readRows hRow]
      exact (readAt_of_getElem?_readRows hRow).1.path?_of_not_inline hInline
    rw [hPath]
    constructor
    · rintro (⟨q, hq, -⟩ | ⟨-, hLost⟩)
      · cases hq
      · exact hLost
    · intro hLost
      exact .inr ⟨⟨_, rfl⟩, hLost⟩

end Runs

/-- A row with a path can be extended if it is tidy or has an inline comment. -/
theorem extensible_of_pathAt? {d : Document} {n : Nat} {text : Text}
    (hText : d.textAt? n = some text)
    (hPath : (d.pathAt? n).isSome) (hTidy : text.form = .data → text.Tidy) : text.Extensible := by
  rw [isSome_pathAt?, dataLineAt?, hText, Option.bind_some, Row.dataLine?_read] at hPath
  cases hForm : text.form with
  | blank => simp [hForm] at hPath
  | data => exact .data hForm (hTidy hForm)
  | full body => simp [hForm] at hPath
  | inline before body => exact .inline hForm

/-- Whatever is written on the rows of a document with tidy data, they can be
extended by it. -/
theorem bears_of_tidy {d : Document} (hTidy : ∀ text ∈ d.rows, text.form = .data → text.Tidy)
    (entries : List (Nat × Comment)) : Progress.Bears { document := d } entries := by
  intro entry _ n hn text hText
  obtain ⟨p, -, hLine⟩ := Option.bind_eq_some_iff.mp hn
  have hPath : (d.pathAt? n).isSome := by rw [(lineOf?_eq_some_iff.mp hLine).1]; rfl
  exact extensible_of_pathAt? hText hPath (hTidy text (List.mem_of_getElem? hText))

end Document

/-- **Annotation is a merge** of the target with the comments of the source, for
every target whose data has no white space but spaces and tabs at its start, and
none at its end. Rows of the target with a comment of their own may be of any
kind. -/
theorem annotate_eq_merge (source target : Document)
    (hTidy : ∀ text ∈ target.rows, text.form = .data → text.Tidy) :
    (target.annotate source.comments).document
      = { target with rows := mergedRows source target } := by
  apply Document.document_complete
  intro entry _ n hn text hText
  obtain ⟨p, -, hLine⟩ := Option.bind_eq_some_iff.mp hn
  have hPath : (target.pathAt? n).isSome := by rw [(Document.lineOf?_eq_some_iff.mp hLine).1]; rfl
  exact Document.extensible_of_pathAt? hText hPath (hTidy text (List.mem_of_getElem? hText))

/-- A target in another order, with a path twice and a row missing. -/
theorem annotate_eq_merge_reordered :
    (∀ text ∈ (Document.ofRows 2 ["b: 3".toList, "a: 4".toList, "a: 5 # old".toList]).rows,
      text.form = .data → text.Tidy) ∧
    ((Document.ofRows 2 ["b: 3".toList, "a: 4".toList, "a: 5 # old".toList]).annotate
      (Document.ofRows 4 ["# on a".toList, "".toList, "a: 1 # one".toList, "# on c".toList,
        "c: 2".toList, "# on b".toList, "b: 3".toList, "a: 6 # two".toList, "# end".toList]).comments).document
    = Document.ofRows 2 ["# on b".toList, "b: 3".toList, "# on a".toList, "".toList,
        "a: 4 # one # two".toList, "a: 5 # old".toList, "# end".toList] := by
  refine ⟨by decide, ?_⟩
  rw [annotate_eq_merge _ _ (by decide)]
  decide

end Marginalia
