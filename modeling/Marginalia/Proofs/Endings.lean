import Marginalia.Proofs.Addressing
import Marginalia.Proofs.TextForm

/-!
# The endings of a result

A document that comments are put into keeps its line ending, and it keeps whether
one stands after its last row. The text it is written as may read otherwise,
though, because comments bring rows of their own:

* The source may end in an empty row. It comes last in the result too, and the line ending before it
  then stands at the very end.
* Where LF ends the lines, carriage returns belong to the rows. If each row that a line ending follows
  happens to end in one, the result reads as a text with CR LF.

These are the only two ways.

## Results

* `Document.closedRows`, `Document.openRow` — the rows that a line ending follows, and what stands after it.
* `Document.ofText_toText_iff`       — which line ending the text of a document shows.
* `Document.chars_suffix_toText_iff` — when the text of a document ends in a line ending.
* `Progress.getLast?_foldr_insert`   — which row comes last after a run of insertions.
* `endings_carryComments_iff`        — exactly when a result shows the endings of its target.
* `carryComments_keeps_endings`      — it does unless the source has stray returns or ends in an empty row.
-/

namespace Marginalia

namespace LineEnding

-- ---------------------------------------------------------------------------
-- Rows with a line ending after each
-- ---------------------------------------------------------------------------

theorem join_concat (ending : LineEnding) (upper : List Text) (last : Text) :
    ending.join (upper ++ [last]) = upper.flatMap (· ++ ending.chars) ++ last := by
  induction upper with
  | nil => simp [join]
  | cons row rest ih =>
    rw [join] at ih ⊢
    cases rest with
    | nil => simp [List.intercalate_cons_cons]
    | cons next more =>
      rw [List.cons_append, List.cons_append, List.intercalate_cons_cons, ← List.cons_append, ih]
      simp only [List.flatMap_cons, List.append_assoc]

theorem endsInReturn_false_iff (t : Text) : endsInReturn false t = true ↔ t.getLast? = some '\r' := by
  rcases List.eq_nil_or_concat' t with rfl | ⟨front, c, rfl⟩
  · simp [endsInReturn]
  · rw [endsInReturn_concat, List.getLast?_concat]
    simp

theorem endsInReturn_chars (ending : LineEnding) (t : Text) :
    endsInReturn false (t ++ ending.chars) = false := by
  cases ending with
  | lf => exact endsInReturn_concat false t '\n'
  | crLf =>
    rw [show t ++ crLf.chars = (t ++ ['\r']) ++ ['\n'] by simp [chars], endsInReturn_concat]
    rfl

/-- The line feed of a line ending follows a carriage return if the ending has
one, or else the row. -/
theorem everyFeedFollowsReturn_chars (ending : LineEnding) {row : Text} (hRow : '\n' ∉ row) :
    everyFeedFollowsReturn false (row ++ ending.chars) = true
      ↔ ending = crLf ∨ row.getLast? = some '\r' := by
  rw [everyFeedFollowsReturn_append, everyFeedFollowsReturn_of_not_mem hRow, Bool.true_and]
  cases ending with
  | lf =>
    rw [← endsInReturn_false_iff]
    simp [chars, everyFeedFollowsReturn]
  | crLf => simp [chars, everyFeedFollowsReturn]

variable {closed : List Text} {last : Text}

theorem everyFeedFollowsReturn_closed (ending : LineEnding) (hClosed : ∀ row ∈ closed, '\n' ∉ row)
    (hLast : '\n' ∉ last) :
    everyFeedFollowsReturn false (closed.flatMap (· ++ ending.chars) ++ last) = true
      ↔ ending = crLf ∨ ∀ row ∈ closed, row.getLast? = some '\r' := by
  induction closed with
  | nil => simp [everyFeedFollowsReturn_of_not_mem hLast]
  | cons row rest ih =>
    have hRow := everyFeedFollowsReturn_chars ending (hClosed row List.mem_cons_self)
    have hRest := ih fun other hOther => hClosed other (List.mem_cons_of_mem _ hOther)
    rw [List.flatMap_cons, List.append_assoc, everyFeedFollowsReturn_append, Bool.and_eq_true,
      endsInReturn_chars, hRow, hRest, List.forall_mem_cons, or_and_left]

theorem feed_mem_closed_iff (ending : LineEnding) (hLast : '\n' ∉ last) :
    '\n' ∈ closed.flatMap (· ++ ending.chars) ++ last ↔ closed ≠ [] := by
  cases closed with
  | nil => simp [hLast]
  | cons row rest => cases ending <;> simp [chars]

/-- Rows with a line ending after each show it, unless the rows' own carriage
returns make it another. -/
theorem ofText_closed_iff (ending : LineEnding) (hClosed : ∀ row ∈ closed, '\n' ∉ row)
    (hLast : '\n' ∉ last) :
    ofText (closed.flatMap (· ++ ending.chars) ++ last) = crLf
      ↔ closed ≠ [] ∧ (ending = crLf ∨ ∀ row ∈ closed, row.getLast? = some '\r') := by
  rw [ofText_eq_crLf_iff, feed_mem_closed_iff ending hLast,
    everyFeedFollowsReturn_closed ending hClosed hLast]

theorem eq_lf_iff (ending : LineEnding) : ending = lf ↔ ending ≠ crLf := by
  cases ending <;> simp

theorem getLast?_chars (ending : LineEnding) : ending.chars.getLast? = some '\n' := by
  cases ending <;> rfl

theorem chars_suffix_closed_iff (ending : LineEnding) (hLast : '\n' ∉ last) :
    ending.chars <:+ closed.flatMap (· ++ ending.chars) ++ last ↔ closed ≠ [] ∧ last = [] := by
  constructor
  · rintro ⟨front, hFront⟩
    refine ⟨?_, ?_⟩
    · have hFeed : '\n' ∈ front ++ ending.chars :=
        List.mem_append_right _ (List.mem_of_getLast? ending.getLast?_chars)
      rw [hFront] at hFeed
      exact (feed_mem_closed_iff ending hLast).mp hFeed
    · -- what stands last would have to end in the line feed
      by_contra hNe
      have hEnd := congrArg List.getLast? hFront
      rw [List.getLast?_append_of_ne_nil _ ending.chars_ne_nil, getLast?_chars,
        List.getLast?_append_of_ne_nil _ hNe] at hEnd
      exact hLast (List.mem_of_getLast? hEnd.symm)
  · rintro ⟨hClosed, rfl⟩
    obtain ⟨upper, row, rfl⟩ := (List.eq_nil_or_concat' closed).resolve_left hClosed
    rw [List.append_nil, List.flatMap_append, List.flatMap_singleton, ← List.append_assoc]
    exact List.suffix_append _ _

end LineEnding

namespace Document

-- ---------------------------------------------------------------------------
-- The text of a document
-- ---------------------------------------------------------------------------

/-- The rows that a line ending follows where the document is written. A document
without rows that ends in a line ending is written like one with an empty row. -/
def closedRows (d : Document) : List Text :=
  if d.endsLast then (if d.rows = [] then [[]] else d.rows) else d.rows.dropLast

/-- What stands after the last line ending where the document is written. -/
def openRow (d : Document) : Text :=
  if d.endsLast then [] else d.rows.getLast?.getD []

theorem toText_eq_closed (d : Document) :
    d.toText = d.closedRows.flatMap (· ++ d.ending.chars) ++ d.openRow := by
  rcases List.eq_nil_or_concat' d.rows with hRows | ⟨upper, last, hRows⟩
  · rw [toText, closedRows, openRow, hRows]
    cases d.endsLast <;> simp [LineEnding.join]
  · rw [toText, closedRows, openRow, hRows, LineEnding.join_concat]
    cases d.endsLast <;> simp

theorem OneLined.closedRows {d : Document} (hRows : d.OneLined) :
    ∀ row ∈ d.closedRows, '\n' ∉ row := by
  intro row hRow
  rw [Document.closedRows] at hRow
  split at hRow
  · split at hRow
    · rw [List.mem_singleton.mp hRow]
      exact List.not_mem_nil
    · exact hRows row hRow
  · exact hRows row (List.dropLast_subset _ hRow)

theorem OneLined.openRow {d : Document} (hRows : d.OneLined) : '\n' ∉ d.openRow := by
  rw [Document.openRow]
  split
  · exact List.not_mem_nil
  · cases hLast : d.rows.getLast? with
    | none => exact List.not_mem_nil
    | some row => exact hRows row (List.mem_of_getLast? hLast)

/-- **Which line ending the text of a document shows.** -/
theorem ofText_toText_iff {d : Document} (hRows : d.OneLined) :
    LineEnding.ofText d.toText = .crLf
      ↔ d.closedRows ≠ [] ∧
        (d.ending = .crLf ∨ ∀ row ∈ d.closedRows, row.getLast? = some '\r') := by
  rw [toText_eq_closed]
  exact LineEnding.ofText_closed_iff d.ending hRows.closedRows hRows.openRow

/-- **When the text of a document ends in a line ending.** -/
theorem chars_suffix_toText_iff {d : Document} (hRows : d.OneLined) :
    d.ending.chars <:+ d.toText ↔ d.closedRows ≠ [] ∧ d.openRow = [] := by
  rw [toText_eq_closed]
  exact LineEnding.chars_suffix_closed_iff d.ending hRows.openRow

theorem chars_suffix_ofText_iff (levelWidth : Nat) (text : Text) :
    (LineEnding.ofText text).chars <:+ text ↔ (ofText levelWidth text).endsLast = true := by
  simp only [ofText]
  split
  · next body hFinal =>
    rw [LineEnding.dropFinal?_eq_some_iff] at hFinal
    exact iff_of_true ⟨body, hFinal.symm⟩ rfl
  · next hFinal =>
    exact iff_of_false (LineEnding.dropFinal?_eq_none_iff.mp hFinal) Bool.false_ne_true

/-- A text that does not end in its line ending has no empty row at its end. -/
theorem getLast?_ofText {levelWidth : Nat} {text : Text}
    (hEnds : (ofText levelWidth text).endsLast = false) :
    (ofText levelWidth text).rows.getLast? ≠ some [] := by
  intro hLast
  have hText := toText_ofText levelWidth text
  have hSuffix := chars_suffix_toText_iff (oneLined_ofText levelWidth text)
  rw [hText, ending_ofText, chars_suffix_ofText_iff levelWidth, hEnds, closedRows, openRow, hEnds,
    hLast] at hSuffix
  -- so there is no row above the empty one, and the text is empty
  obtain ⟨upper, row, hRows⟩ := (List.eq_nil_or_concat' (ofText levelWidth text).rows).resolve_left
    (fun hNil => by simp [hNil] at hLast)
  obtain rfl : upper = [] := by simpa [hRows] using hSuffix
  obtain rfl : row = [] := by simpa [hRows] using hLast
  rw [toText, hRows, hEnds] at hText
  obtain rfl : [] = text := hText
  cases hRows

end Document

namespace Progress

-- ---------------------------------------------------------------------------
-- The last row
-- ---------------------------------------------------------------------------

theorem getLast?_insertAt_of_lt {d : Document} {n : Nat} (hLt : n < d.length) (text : Text) :
    (d.insertAt n text).rows.getLast? = d.rows.getLast? := by
  have hSplit : d.rows = d.rows.take n ++ d.rows.drop n := (List.take_append_drop n d.rows).symm
  have hUpper : (d.rows.take n).length = n := List.length_take_of_le (Nat.le_of_lt hLt)
  have hLower : d.rows.drop n ≠ [] := by
    rw [ne_eq, List.drop_eq_nil_iff]
    exact Nat.not_le_of_lt hLt
  have hInsert := Document.insertAt_of_rows_eq hSplit text
  rw [hUpper] at hInsert
  rw [hInsert]
  show (d.rows.take n ++ text :: d.rows.drop n).getLast? = _
  rw [List.getLast?_append_cons, List.getLast?_cons_of_ne_nil hLower]
  conv_rhs => rw [hSplit, List.getLast?_append_of_ne_nil _ hLower]

theorem getLast?_insertAt_length (d : Document) (text : Text) :
    (d.insertAt d.length text).rows.getLast? = some text := by
  have hInsert := Document.insertAt_of_rows_eq d.rows.append_nil.symm text
  rw [Document.length, hInsert]
  exact List.getLast?_concat

/-- Only a comment that belongs to the end of its document comes last. -/
theorem getLast?_insert (entry : Nat × Comment) (progress : Progress) :
    (insert entry progress).document.rows.getLast?
      = if entry.2.anchor? = some .bottom then some entry.2.line.text
        else progress.document.rows.getLast? := by
  split
  · next hBottom =>
    have hLine : progress.insertionLine? entry.2 = some progress.document.length := by
      rw [insertionLine?, insertionLineBy, hBottom]
    rw [insert_of_some hLine]
    exact getLast?_insertAt_length _ _
  · next hAnchor =>
    cases hLine : progress.insertionLine? entry.2 with
    | none => rw [insert_of_none hLine]
    | some n =>
      rw [insert_of_some hLine]
      exact getLast?_insertAt_of_lt (insertionLine?_lt hAnchor hLine) _

/-- **The row that comes last after a run of insertions**: that of the comment that
belongs to the end, if there is one, and otherwise the row that came last
before. -/
theorem getLast?_foldr_insert (entries : List (Nat × Comment)) (start : Progress) :
    (entries.foldr insert start).document.rows.getLast?
      = ((entries.find? fun entry => entry.2.anchor? = some .bottom).map (·.2.line.text)).or
          start.document.rows.getLast? := by
  induction entries with
  | nil => rfl
  | cons entry rest ih =>
    rw [List.foldr_cons, getLast?_insert, List.find?_cons, ih]
    by_cases hBottom : entry.2.anchor? = some .bottom
    · simp [hBottom]
    · simp [hBottom]

end Progress

theorem Interleaves.sublist {old rows : List Text} {entries : List (Nat × Comment)}
    (hRows : Interleaves old entries rows) : old.Sublist rows := by
  obtain ⟨layout, rfl, rfl, -⟩ := hRows
  induction layout with
  | nil => exact .slnil
  | cons origin rest ih =>
    cases origin with
    | kept row => exact ih.cons_cons row
    | added entry => exact ih.cons _

namespace Document

/-- The comment that belongs to the end of a document has its last row. -/
theorem getLast?_of_anchor?_bottom {d : Document} {entry : Nat × Comment}
    (hEntry : entry ∈ d.comments.rowEntries) (hBottom : entry.2.anchor? = some .bottom) :
    d.rows.getLast? = some entry.2.line.text := by
  have hMem := (List.mem_filter.mp hEntry).1
  cases anchored_of_mem_comments hMem with
  | own hOwn => cases hOwn.symm.trans hBottom
  | line _ hData => cases hData.symm.trans hBottom
  | comment _ hComment => cases hComment.symm.trans hBottom
  | bottom _ _ hLast =>
    have hText := (line_of_mem_comments hMem).2
    rw [List.getLast?_eq_getElem?, show d.rows.length = entry.1 + 1 from hLast]
    exact hText

/-- An empty row at the end of a document belongs to its end. -/
theorem exists_bottom_of_getLast? {d : Document} (hLast : d.rows.getLast? = some []) :
    ∃ entry ∈ d.comments.rowEntries, entry.2.anchor? = some .bottom := by
  rw [List.getLast?_eq_getElem?] at hLast
  have hLt := (List.getElem?_eq_some_iff.mp hLast).1
  have hRow : d.readRows[d.rows.length - 1]?
      = some ((Row.read (d.rows.length - 1) []).withPath (d.pathAt? (d.rows.length - 1))) := by
    have hRowAt := d.rowAt?_eq (d.rows.length - 1)
    rwa [textAt?, hLast] at hRowAt
  have hNext : d.readRows[d.rows.length - 1 + 1]? = none := by
    rw [List.getElem?_eq_none_iff, length_readRows]
    omega
  refine ⟨_, List.mem_filter.mpr ⟨mem_entries_comments_iff.mpr ⟨_, _, hRow, rfl⟩, rfl⟩, ?_⟩
  rw [hNext]
  rfl

-- ---------------------------------------------------------------------------
-- The document that is carried to
-- ---------------------------------------------------------------------------

theorem closedRows_ne_nil_iff (d : Document) :
    d.closedRows ≠ [] ↔ d.endsLast = true ∨ 2 ≤ d.rows.length := by
  rw [closedRows, ne_eq, ← List.length_eq_zero_iff]
  cases d.endsLast with
  | true => by_cases hRows : d.rows = [] <;> simp [hRows]
  | false => simp; omega

/-- The document with the comments of the text `source` that carrying them to the
text `target` gives. -/
def carried (levelWidth : Nat) (source target : Text) : Document :=
  ((ofText levelWidth target).annotate (ofText levelWidth source).comments).document

variable (levelWidth : Nat) (source target : Text)

theorem toText_carried :
    (carried levelWidth source target).toText = carryComments levelWidth source target :=
  rfl

theorem oneLined_carried : (carried levelWidth source target).OneLined :=
  oneLined_annotate (oneLined_ofText levelWidth target) (oneLined_ofText levelWidth source)

theorem ending_carried : (carried levelWidth source target).ending = LineEnding.ofText target :=
  (ending_annotate _ _).trans (ending_ofText levelWidth target)

theorem endsLast_carried :
    (carried levelWidth source target).endsLast = (ofText levelWidth target).endsLast :=
  endsLast_annotate _ _

theorem length_le_carried :
    (ofText levelWidth target).rows.length ≤ (carried levelWidth source target).rows.length := by
  have decisions := Decisions.made (ofText levelWidth target) (ofText levelWidth source).comments
  have hRows := decisions.inserted.rows.sublist.length_le
  rwa [decisions.document_writeAll, extendBy, List.length_mapIdx] at hRows

/-- The last row is empty only if the source or the target ends in an empty row. -/
theorem getLast?_carried (hTarget : (ofText levelWidth target).rows.getLast? ≠ some []) :
    (carried levelWidth source target).rows.getLast? = some []
      ↔ (ofText levelWidth source).rows.getLast? = some [] := by
  have hLast := Progress.getLast?_foldr_insert (ofText levelWidth source).comments.rowEntries
    (Progress.writeAll (ofText levelWidth target) (ofText levelWidth source).comments)
  show (Progress.complete _ _).document.rows.getLast? = some [] ↔ _
  rw [Progress.complete, hLast]
  cases hFind : (ofText levelWidth source).comments.rowEntries.find? _ with
  | some entry =>
    have hBottom : entry.2.anchor? = some .bottom := by simpa using List.find?_some hFind
    rw [getLast?_of_anchor?_bottom (List.mem_of_find?_eq_some hFind) hBottom]
    rfl
  | none =>
    -- the row that comes last is one of the target, with what comments add to it
    have decisions := Decisions.made (ofText levelWidth target) (ofText levelWidth source).comments
    rw [decisions.document_writeAll, extendBy, List.getLast?_mapIdx, Option.map_none, Option.none_or]
    refine iff_of_false (fun hEmpty => ?_) (fun hSource => ?_)
    · obtain ⟨row, hRow, hNil⟩ := Option.map_eq_some_iff.mp hEmpty
      rw [(List.append_eq_nil_iff.mp hNil).1] at hRow
      exact hTarget hRow
    · obtain ⟨entry, hEntry, hBottom⟩ := exists_bottom_of_getLast? hSource
      exact absurd (List.find?_eq_none.mp hFind entry hEntry) (by simp [hBottom])

theorem closedRows_carried (hTarget : (ofText levelWidth target).closedRows ≠ []) :
    (carried levelWidth source target).closedRows ≠ [] := by
  rw [closedRows_ne_nil_iff] at hTarget ⊢
  rw [endsLast_carried]
  exact hTarget.imp_right fun hTwo => hTwo.trans (length_le_carried levelWidth source target)

/-- The result shows the line ending of its target, unless carriage returns of
its rows stand before all line feeds. -/
theorem ofText_carryComments_iff :
    LineEnding.ofText (carryComments levelWidth source target) = LineEnding.ofText target ↔
      LineEnding.ofText target = .crLf ∨
      (carried levelWidth source target).closedRows = [] ∨
      ∃ row ∈ (carried levelWidth source target).closedRows, row.getLast? ≠ some '\r' := by
  have hShown := ofText_toText_iff (oneLined_carried levelWidth source target)
  rw [ending_carried, toText_carried] at hShown
  cases hTarget : LineEnding.ofText target with
  | crLf =>
    have hClosed := (ofText_toText_iff (oneLined_ofText levelWidth target)).mp
      (by rw [toText_ofText, hTarget])
    exact iff_of_true
      (hShown.mpr ⟨closedRows_carried levelWidth source target hClosed.1, .inl hTarget⟩) (.inl rfl)
  | lf =>
    rw [LineEnding.eq_lf_iff, ne_eq, hShown, hTarget]
    simp only [reduceCtorEq, false_or, not_and_or, not_not, not_forall, exists_prop, ne_eq]

/-- The result ends in a line ending if its target does, or else if the source
ends in an empty row and something stands above it. -/
theorem chars_suffix_carryComments_iff :
    (LineEnding.ofText target).chars <:+ carryComments levelWidth source target ↔
      (LineEnding.ofText target).chars <:+ target ∨
      (ofText levelWidth source).rows.getLast? = some [] ∧
        carryComments levelWidth source target ≠ [] := by
  have hSuffix := chars_suffix_toText_iff (oneLined_carried levelWidth source target)
  have hEnds := endsLast_carried levelWidth source target
  rw [ending_carried, toText_carried] at hSuffix
  rw [chars_suffix_ofText_iff levelWidth target]
  cases hLast : (ofText levelWidth target).endsLast with
  | true =>
    rw [hLast] at hEnds
    rw [hSuffix, closedRows_ne_nil_iff, openRow, hEnds]
    simp
  | false =>
    have hRow := getLast?_carried levelWidth source target (getLast?_ofText hLast)
    rw [hLast] at hEnds
    rw [← hRow]
    constructor
    · intro hChars
      obtain ⟨hClosed, hOpen⟩ := hSuffix.mp hChars
      refine .inr ⟨?_, fun hNil => ?_⟩
      · cases hRows : (carried levelWidth source target).rows.getLast? with
        | none =>
          rw [closedRows, hEnds, List.getLast?_eq_none_iff.mp hRows] at hClosed
          exact absurd rfl hClosed
        | some row =>
          rw [openRow, hEnds, hRows] at hOpen
          exact congrArg some hOpen
      · rw [hNil, List.suffix_nil] at hChars
        exact LineEnding.chars_ne_nil _ hChars
    · rintro (hFalse | ⟨hEmpty, hText⟩)
      · cases hFalse
      · have hOpen : (carried levelWidth source target).openRow = [] := by
          rw [openRow, hEnds, hEmpty]
          rfl
        refine hSuffix.mpr ⟨fun hClosed => hText ?_, hOpen⟩
        rw [← toText_carried, toText_eq_closed, hClosed, hOpen]
        rfl

end Document

/-- **The endings of a result, exactly.** The result shows the line ending of its
target, unless the target's is LF and each row of the result that a line ending
follows ends in a carriage return. It ends in the line ending if the target does;
otherwise only if the source ends in an empty row, and the result is not empty. -/
theorem endings_carryComments_iff (levelWidth : Nat) (source target : Text) :
    (LineEnding.ofText (carryComments levelWidth source target) = LineEnding.ofText target ↔
      LineEnding.ofText target = .crLf ∨
      (Document.carried levelWidth source target).closedRows = [] ∨
      ∃ row ∈ (Document.carried levelWidth source target).closedRows, row.getLast? ≠ some '\r') ∧
    ((LineEnding.ofText target).chars <:+ carryComments levelWidth source target ↔
      (LineEnding.ofText target).chars <:+ target ∨
      (Document.ofText levelWidth source).rows.getLast? = some [] ∧
        carryComments levelWidth source target ≠ []) :=
  ⟨Document.ofText_carryComments_iff levelWidth source target,
    Document.chars_suffix_carryComments_iff levelWidth source target⟩

/-- A comment with a stray carriage return at its end turns LF into CR LF, and an
empty row at the end of the source puts a line ending at the end. -/
theorem carryComments_changes_endings :
    LineEnding.ofText (carryComments 4 "a: 1 # c\r\nb: 2\n".toList "a: 1\n".toList)
      ≠ LineEnding.ofText "a: 1\n".toList ∧
    ¬ ((LineEnding.ofText "a: 1".toList).chars <:+ carryComments 4 "a: 1\n\n".toList "a: 1".toList ↔
        (LineEnding.ofText "a: 1".toList).chars <:+ "a: 1".toList) := by
  decide

namespace Document

-- ---------------------------------------------------------------------------
-- Sources without stray carriage returns
-- ---------------------------------------------------------------------------

/-- What a comment adds to a row ends in a carriage return only if the comment
does. -/
theorem getLast?_trailer {comment : Comment} (hRead : comment.IsRead)
    (hStray : comment.line.text.getLast? ≠ some '\r') : comment.trailer.getLast? ≠ some '\r' := by
  obtain ⟨front, hText⟩ := hRead.body_suffix
  rcases List.eq_nil_or_concat' comment.body with hBody | ⟨body, c, hBody⟩
  · rw [Comment.trailer, hBody]
    decide
  · rw [← hText, hBody, ← List.append_assoc, List.getLast?_concat] at hStray
    rw [Comment.trailer, hBody, ← List.cons_append, ← List.cons_append, List.getLast?_concat]
    exact hStray

theorem getLast?_append_flatMap {entries : List (Nat × Comment)}
    (hTrailers : ∀ entry ∈ entries, entry.2.trailer.getLast? ≠ some '\r') {row : Text}
    (hRow : (row ++ entries.flatMap fun entry => entry.2.trailer).getLast? = some '\r') :
    row.getLast? = some '\r' := by
  induction entries generalizing row with
  | nil => simpa using hRow
  | cons entry rest ih =>
    rw [List.flatMap_cons, ← List.append_assoc] at hRow
    have hEntry := ih (fun other hOther => hTrailers other (List.mem_cons_of_mem _ hOther)) hRow
    have hSome : entry.2.trailer ≠ [] := List.cons_ne_nil _ _
    rw [List.getLast?_append_of_ne_nil _ hSome] at hEntry
    exact absurd hEntry (hTrailers entry List.mem_cons_self)

variable {levelWidth : Nat} {source target : Text}

theorem getLast?_trailersOn
    (hSource : ∀ entry ∈ (ofText levelWidth source).comments.entries,
      entry.2.line.text.getLast? ≠ some '\r') {carrier : Nat × Comment → Option Nat} {n : Nat}
    {row : Text}
    (hRow : (row ++ trailersOn carrier (ofText levelWidth source).comments.inlineEntries n).getLast?
      = some '\r') : row.getLast? = some '\r' := by
  refine getLast?_append_flatMap (fun entry hEntry => ?_) hRow
  have hMem := (List.mem_filter.mp (List.mem_filter.mp hEntry).1).1
  exact getLast?_trailer (allRead_comments _ entry hMem) (hSource entry hMem)

/-- Without stray returns in the source, only rows of the target end in one. -/
theorem exists_of_getLast?_carried
    (hSource : ∀ entry ∈ (ofText levelWidth source).comments.entries,
      entry.2.line.text.getLast? ≠ some '\r') {row : Text}
    (hRow : row ∈ (carried levelWidth source target).rows) (hReturn : row.getLast? = some '\r') :
    ∃ old ∈ (ofText levelWidth target).rows, old.getLast? = some '\r' := by
  rcases (Decisions.made _ _).exists_of_mem_rows hRow with ⟨n, old, hOld, rfl⟩ | ⟨entry, hEntry, rfl⟩
  · exact ⟨old, hOld, getLast?_trailersOn hSource hReturn⟩
  · exact absurd hReturn (hSource entry (List.mem_filter.mp hEntry).1)

theorem dropLast_sublist_of_sublist {α : Type} {l m : List α} (hSub : l.Sublist m) :
    l.dropLast.Sublist m.dropLast := by
  have hTail := hSub.reverse.tail
  rwa [List.tail_reverse, List.tail_reverse, List.reverse_sublist] at hTail

theorem mem_closedRows_iff {d : Document} (hRows : d.rows ≠ []) {row : Text} :
    row ∈ d.closedRows
      ↔ ∃ n, d.rows[n]? = some row ∧ (d.endsLast = true ∨ n + 1 < d.rows.length) := by
  rw [closedRows, if_neg hRows]
  cases d.endsLast with
  | true => simp [List.mem_iff_getElem?]
  | false =>
    rw [if_neg Bool.false_ne_true, List.mem_iff_getElem?]
    simp only [List.getElem?_dropLast, reduceCtorEq, false_or, Option.ite_none_right_eq_some]
    exact exists_congr fun n => and_comm.trans (and_congr_right fun _ => by omega)

/-- Rows put in between leave a line ending after the rows that had one. -/
theorem closedRows_sublist {d e : Document} (hEnds : d.endsLast = e.endsLast)
    (hSub : d.rows.Sublist e.rows) (hRows : d.rows ≠ []) : d.closedRows.Sublist e.closedRows := by
  have hMore : e.rows ≠ [] := fun hNil => hRows (List.sublist_nil.mp (hNil ▸ hSub))
  rw [closedRows, closedRows, ← hEnds, if_neg hRows, if_neg hMore]
  split
  · exact hSub
  · exact dropLast_sublist_of_sublist hSub

/-- A row of the target that a line ending follows still has one after it. -/
theorem exists_mem_closedRows_carried (hRows : (ofText levelWidth target).rows ≠ [])
    {row : Text} (hRow : row ∈ (ofText levelWidth target).closedRows) :
    ∃ carrier n, row ++ trailersOn carrier (ofText levelWidth source).comments.inlineEntries n
      ∈ (carried levelWidth source target).closedRows := by
  have decisions := Decisions.made (ofText levelWidth target) (ofText levelWidth source).comments
  have hSub := decisions.inserted.rows.sublist
  rw [decisions.document_writeAll] at hSub
  have hExtended : ((ofText levelWidth target).extendBy decisions.carrier
      (ofText levelWidth source).comments.inlineEntries).rows ≠ [] := by
    simpa [extendBy] using hRows
  have hClosed : (extendBy _ _ _).closedRows.Sublist (carried levelWidth source target).closedRows :=
    closedRows_sublist (endsLast_carried levelWidth source target).symm hSub hExtended
  obtain ⟨n, hAt, hEnds⟩ := (mem_closedRows_iff hRows).mp hRow
  refine ⟨decisions.carrier, n, hClosed.subset ((mem_closedRows_iff hExtended).mpr ⟨n, ?_, ?_⟩)⟩
  · rw [extendBy, List.getElem?_mapIdx, hAt]
    rfl
  · simpa [extendBy] using hEnds

theorem mem_rows_of_mem_closedRows {d : Document} {row : Text} (hRow : row ∈ d.closedRows)
    (hNe : row ≠ []) : row ∈ d.rows := by
  rw [closedRows] at hRow
  split at hRow
  · split at hRow
    · exact absurd (List.mem_singleton.mp hRow) hNe
    · exact hRow
  · exact List.dropLast_subset _ hRow

/-- A text without line endings is its only row. -/
theorem eq_of_closedRows_eq_nil (hClosed : (ofText levelWidth target).closedRows = []) {row : Text}
    (hRow : row ∈ (ofText levelWidth target).rows) : row = target := by
  have hText := toText_ofText levelWidth target
  rw [toText_eq_closed, hClosed, openRow] at hText
  rw [closedRows, if_neg (List.ne_nil_of_mem hRow)] at hClosed
  split at hClosed
  · exact absurd hClosed (List.ne_nil_of_mem hRow)
  · next hEnds =>
    obtain ⟨upper, last, hRows⟩ := (List.eq_nil_or_concat' (ofText levelWidth target).rows).resolve_left
      (List.ne_nil_of_mem hRow)
    obtain rfl : upper = [] := by simpa [hRows] using hClosed
    obtain rfl : row = last := by simpa [hRows] using hRow
    simpa [hEnds, hRows] using hText

/-- Without stray returns in the source, some line ending of the result stands
after another character than a carriage return, if this is so in the target. -/
theorem exists_getLast?_ne_carried
    (hSource : ∀ entry ∈ (ofText levelWidth source).comments.entries,
      entry.2.line.text.getLast? ≠ some '\r')
    (hTarget : '\n' ∈ target ∨ target.getLast? ≠ some '\r')
    (hEnding : LineEnding.ofText target = .lf) :
    (carried levelWidth source target).closedRows = [] ∨
      ∃ row ∈ (carried levelWidth source target).closedRows, row.getLast? ≠ some '\r' := by
  by_contra hNone
  obtain ⟨hClosed, hReturns⟩ := not_or.mp hNone
  have hReturns : ∀ row ∈ (carried levelWidth source target).closedRows, row.getLast? = some '\r' :=
    fun row hRow => by_contra fun hReturn => hReturns ⟨row, hRow, hReturn⟩
  -- a row of the target ends in a carriage return
  obtain ⟨row, hRow⟩ := List.exists_mem_of_ne_nil _ hClosed
  have hMem := mem_rows_of_mem_closedRows hRow fun hNil => by simpa [hNil] using hReturns row hRow
  obtain ⟨old, hOld, hReturn⟩ := exists_of_getLast?_carried hSource hMem (hReturns row hRow)
  -- so do all that a line ending follows, and then none does, for it would be CR LF
  have hOlds : ∀ row ∈ (ofText levelWidth target).closedRows, row.getLast? = some '\r' := by
    intro row hRow
    obtain ⟨carrier, n, hKept⟩ := exists_mem_closedRows_carried (List.ne_nil_of_mem hOld) hRow
    exact getLast?_trailersOn hSource (hReturns _ hKept)
  have hNil : (ofText levelWidth target).closedRows = [] := by
    by_contra hNe
    have hShown := (ofText_toText_iff (oneLined_ofText levelWidth target)).mpr ⟨hNe, .inr hOlds⟩
    rw [toText_ofText, hEnding] at hShown
    cases hShown
  have hFeed := oneLined_ofText levelWidth target old hOld
  rw [eq_of_closedRows_eq_nil hNil hOld] at hFeed hReturn
  exact hTarget.elim hFeed fun hOther => hOther hReturn

end Document

/-- **A result keeps the endings of its target.** It does if no comment of the
source ends in a stray carriage return, the source does not end in an empty row,
and the target is not a single row that ends in a carriage return. -/
theorem carryComments_keeps_endings {levelWidth : Nat} {source target : Text}
    (hSource : ∀ entry ∈ (Document.ofText levelWidth source).comments.entries,
      entry.2.line.text.getLast? ≠ some '\r')
    (hLast : (Document.ofText levelWidth source).rows.getLast? ≠ some [])
    (hTarget : '\n' ∈ target ∨ target.getLast? ≠ some '\r') :
    LineEnding.ofText (carryComments levelWidth source target) = LineEnding.ofText target ∧
    ((LineEnding.ofText target).chars <:+ carryComments levelWidth source target ↔
      (LineEnding.ofText target).chars <:+ target) := by
  refine ⟨(Document.ofText_carryComments_iff levelWidth source target).mpr ?_, ?_⟩
  · cases hEnding : LineEnding.ofText target with
    | crLf => exact .inl rfl
    | lf => exact .inr (Document.exists_getLast?_ne_carried hSource hTarget hEnding)
  · rw [Document.chars_suffix_carryComments_iff]
    simp [hLast]

end Marginalia
