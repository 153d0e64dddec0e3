import Marginalia.Proofs.DataKept

/-!
# The text form

A document keeps everything that its text says: the rows, which line ending
stands between them, and whether one stands after the last. No row has a line
feed in it, for the ending is chosen so that every line feed of the text is part
of one: where CR LF ends the lines, each line feed follows a carriage return.

## Results

* `LineEnding.everyFeedFollowsReturn_append` — a text's line feeds are checked part by part.
* `LineEnding.not_mem_of_mem_split`          — the pieces between the line endings have no line feeds.
* `Document.oneLined_ofText`                 — nor have the rows of a text's document.
* `Document.annotate_empty`                  — a document without more comments stays as it is.
* `Decisions.exists_of_mem_rows`             — where the rows of an annotated document come from.
* `Document.ending_annotate`, `Document.endsLast_annotate` — its endings are those of the document.
* `Document.oneLined_annotate`               — its rows have no line feeds either.
* `text_form_is_lossless`                    — a text is read and written back as it was.
-/

namespace Marginalia

namespace LineEnding

-- ---------------------------------------------------------------------------
-- Line feeds after carriage returns
-- ---------------------------------------------------------------------------

/-- Whether a carriage return stands right before the end of a text;
`afterReturn` says whether one stands right before the text. -/
def endsInReturn (afterReturn : Bool) (t : Text) : Bool :=
  t.foldl (fun _ c => c == '\r') afterReturn

theorem endsInReturn_concat (afterReturn : Bool) (t : Text) (c : Char) :
    endsInReturn afterReturn (t ++ [c]) = (c == '\r') := by
  rw [endsInReturn, List.foldl_append]
  rfl

theorem everyFeedFollowsReturn_append (afterReturn : Bool) (upper lower : Text) :
    everyFeedFollowsReturn afterReturn (upper ++ lower)
      = (everyFeedFollowsReturn afterReturn upper
          && everyFeedFollowsReturn (endsInReturn afterReturn upper) lower) := by
  induction upper generalizing afterReturn with
  | nil => rfl
  | cons c rest ih =>
    rw [List.cons_append, everyFeedFollowsReturn, everyFeedFollowsReturn, ih, Bool.and_assoc]
    rfl

theorem everyFeedFollowsReturn_of_not_mem {t : Text} (hFeed : '\n' ∉ t) (afterReturn : Bool) :
    everyFeedFollowsReturn afterReturn t = true := by
  induction t generalizing afterReturn with
  | nil => rfl
  | cons c rest ih =>
    have hc : c ≠ '\n' := (List.ne_of_not_mem_cons hFeed).symm
    rw [everyFeedFollowsReturn, ih (List.not_mem_of_not_mem_cons hFeed)]
    simp [hc]

theorem ofText_eq_crLf_iff (text : Text) :
    ofText text = crLf ↔ '\n' ∈ text ∧ everyFeedFollowsReturn false text = true := by
  rw [ofText]
  split <;> simp_all

-- ---------------------------------------------------------------------------
-- Pieces without line feeds
-- ---------------------------------------------------------------------------

/-- Where each line feed follows a carriage return, each is between two pieces.
By induction along the search for the pairs: a pair is passed as a whole, so no
carriage return stands right before what is left. -/
theorem not_mem_of_mem_splitOnPair {t piece : Text} (hFeeds : everyFeedFollowsReturn false t = true)
    (hPiece : piece ∈ Text.splitOnPair '\r' '\n' t) : '\n' ∉ piece := by
  fun_induction Text.splitOnPair '\r' '\n' t generalizing piece with
  | case1 =>
    obtain rfl := List.mem_singleton.mp hPiece
    exact List.not_mem_nil
  | case2 c =>
    obtain rfl := List.mem_singleton.mp hPiece
    have hc : c ≠ '\n' := by simpa [everyFeedFollowsReturn] using hFeeds
    exact fun hFeed => hc (List.mem_singleton.mp hFeed).symm
  | case3 c d rest hPair ih =>
    obtain ⟨rfl, rfl⟩ := hPair
    rcases List.mem_cons.mp hPiece with rfl | hPiece
    · exact List.not_mem_nil
    · exact ih hFeeds hPiece
  | case4 c d rest hPair ih =>
    obtain ⟨hc, hRest⟩ : c ≠ '\n' ∧ everyFeedFollowsReturn (c == '\r') (d :: rest) = true := by
      rw [everyFeedFollowsReturn] at hFeeds
      simpa using hFeeds
    have hLater : everyFeedFollowsReturn false (d :: rest) = true := by
      rw [everyFeedFollowsReturn] at hRest ⊢
      by_cases hReturn : c = '\r'
      · have hd : d ≠ '\n' := fun hd => hPair ⟨hReturn, hd⟩
        simpa [hd] using hRest
      · simpa [hReturn] using hRest
    cases hPieces : Text.splitOnPair '\r' '\n' (d :: rest) with
    | nil => exact absurd hPieces (Text.splitOnPair_ne_nil _ _ _)
    | cons first pieces =>
      rw [hPieces] at hPiece ih
      rcases List.mem_cons.mp hPiece with rfl | hPiece
      · exact List.not_mem_cons_of_ne_of_not_mem hc.symm (ih hLater List.mem_cons_self)
      · exact ih hLater (List.mem_cons_of_mem _ hPiece)

/-- The pieces between the endings of a text that begins like this one have no
line feeds. -/
theorem not_mem_of_mem_split {body rest piece : Text}
    (hPiece : piece ∈ (ofText (body ++ rest)).split body) : '\n' ∉ piece := by
  cases hEnding : ofText (body ++ rest) with
  | lf =>
    rw [hEnding] at hPiece
    exact Text.not_mem_of_mem_splitOn hPiece
  | crLf =>
    rw [hEnding] at hPiece
    have hFeeds := ((ofText_eq_crLf_iff _).mp hEnding).2
    rw [everyFeedFollowsReturn_append, Bool.and_eq_true] at hFeeds
    exact not_mem_of_mem_splitOnPair hFeeds.1 hPiece

end LineEnding

namespace Document

-- ---------------------------------------------------------------------------
-- Rows without line feeds
-- ---------------------------------------------------------------------------

/-- No row has a line feed in it. -/
def OneLined (d : Document) : Prop :=
  ∀ row ∈ d.rows, '\n' ∉ row

theorem not_mem_of_mem_rowsOf {body rest row : Text}
    (hRow : row ∈ rowsOf (LineEnding.ofText (body ++ rest)) body) : '\n' ∉ row := by
  rw [rowsOf] at hRow
  split at hRow
  · cases hRow
  · exact LineEnding.not_mem_of_mem_split hRow

theorem ending_ofText (levelWidth : Nat) (text : Text) :
    (ofText levelWidth text).ending = LineEnding.ofText text := by
  simp only [ofText]
  split <;> rfl

theorem oneLined_ofText (levelWidth : Nat) (text : Text) : (ofText levelWidth text).OneLined := by
  intro row hRow
  simp only [ofText] at hRow
  split at hRow
  · next body hBody =>
    rw [LineEnding.dropFinal?_eq_some_iff] at hBody
    rw [hBody] at hRow
    exact not_mem_of_mem_rowsOf hRow
  · exact @not_mem_of_mem_rowsOf text [] row (by rwa [List.append_nil])

-- ---------------------------------------------------------------------------
-- Documents without comments
-- ---------------------------------------------------------------------------

theorem commentsFrom_eq_nil {rows : List Row} (hRows : ∀ row ∈ rows, row.comment? = none) (k : Nat) :
    commentsFrom k rows = [] := by
  induction rows generalizing k with
  | nil => rfl
  | cons row rest ih =>
    rw [commentsFrom, hRows row List.mem_cons_self]
    exact ih (fun other hOther => hRows other (List.mem_cons_of_mem _ hOther)) (k + 1)

theorem comments_eq_empty {d : Document} (hRows : ∀ row ∈ d.readRows, row.comment? = none) :
    d.comments = .empty := by
  simp only [comments, commentsFrom_eq_nil hRows, Collection.empty]

theorem annotate_empty (d : Document) :
    d.annotate .empty = { document := d, placed := 0, orphans := [] } := by
  show ({ document := d } : Progress).result = _
  rw [Progress.result, List.mergeSort_nil]

end Document

-- ---------------------------------------------------------------------------
-- The rows of an annotated document
-- ---------------------------------------------------------------------------

/-- The body of a comment is the end of its row. -/
theorem Text.body_suffix_of_form {t body : Text}
    (hForm : t.form = .full body ∨ ∃ before, t.form = .inline before body) : body <:+ t := by
  unfold form at hForm
  split at hForm
  · simp at hForm
  · split at hForm
    · simp at hForm
    · next before rest hSplit =>
      obtain rfl : rest = body := by
        split at hForm <;> simpa using hForm
      rw [splitAtMarker_eq_some hSplit]
      exact (List.suffix_cons marker rest).trans (List.suffix_append before _)

theorem Comment.IsRead.body_suffix {comment : Comment} (hRead : comment.IsRead) :
    comment.body <:+ comment.line.text := by
  obtain ⟨number, path?, hRow⟩ := hRead
  cases hForm : comment.line.text.form with
  | blank =>
    rw [Row.read, hForm] at hRow
    have hBody : comment.body = [] := congrArg Comment.body (Row.comment.inj hRow)
    rw [hBody]
    exact List.nil_suffix
  | data =>
    rw [Row.read, hForm] at hRow
    cases hRow
  | full body =>
    rw [Row.read, hForm] at hRow
    have hBody : comment.body = body := congrArg Comment.body (Row.comment.inj hRow)
    exact Text.body_suffix_of_form (.inl (hBody ▸ hForm))
  | inline before body =>
    rw [Row.read, hForm] at hRow
    have hBody : comment.body = body := congrArg Comment.body (Row.comment.inj hRow)
    exact Text.body_suffix_of_form (.inr ⟨before, hBody ▸ hForm⟩)

theorem Interleaves.mem_or_exists {old rows : List Text} {entries : List (Nat × Comment)}
    (hRows : Interleaves old entries rows) {row : Text} (hRow : row ∈ rows) :
    row ∈ old ∨ ∃ entry ∈ entries, row = entry.2.line.text := by
  obtain ⟨layout, rfl, rfl, hAdded⟩ := hRows
  obtain ⟨origin, hOrigin, rfl⟩ := List.mem_map.mp hRow
  cases origin with
  | kept text => exact .inl (List.mem_filterMap.mpr ⟨_, hOrigin, rfl⟩)
  | added entry =>
    have hEntry : entry ∈ layout.filterMap Origin.added? :=
      List.mem_filterMap.mpr ⟨_, hOrigin, rfl⟩
    exact .inr ⟨entry, hAdded.subset hEntry, rfl⟩

/-- Each row of an annotated document is an old row with what comments add to it,
or the row of a comment. -/
theorem Decisions.exists_of_mem_rows {d : Document} {comments : Collection}
    (decisions : Decisions d comments) {row : Text}
    (hRow : row ∈ (d.annotate comments).document.rows) :
    (∃ n, ∃ text ∈ d.rows,
        row = text ++ Document.trailersOn decisions.carrier comments.inlineEntries n) ∨
      ∃ entry ∈ comments.rowEntries, row = entry.2.line.text := by
  rcases decisions.inserted.rows.mem_or_exists hRow with hOld | ⟨entry, hEntry, rfl⟩
  · rw [decisions.document_writeAll, Document.extendBy] at hOld
    obtain ⟨n, hLt, rfl⟩ := List.mem_mapIdx.mp hOld
    exact .inl ⟨n, _, List.getElem_mem hLt, rfl⟩
  · exact .inr ⟨entry, (List.mem_filter.mp hEntry).1, rfl⟩

namespace Document

theorem ending_annotate (d : Document) (comments : Collection) :
    (d.annotate comments).document.ending = d.ending := by
  rw [(Decisions.made d comments).frame]

theorem endsLast_annotate (d : Document) (comments : Collection) :
    (d.annotate comments).document.endsLast = d.endsLast := by
  rw [(Decisions.made d comments).frame]

theorem text_mem_rows_of_mem_comments {d : Document} {entry : Nat × Comment}
    (hEntry : entry ∈ d.comments.entries) : entry.2.line.text ∈ d.rows :=
  List.mem_of_getElem? (line_of_mem_comments hEntry).2

theorem oneLined_annotate {target source : Document} (hTarget : target.OneLined)
    (hSource : source.OneLined) : (target.annotate source.comments).document.OneLined := by
  have hText : ∀ entry ∈ source.comments.entries, '\n' ∉ entry.2.line.text :=
    fun entry hEntry => hSource _ (text_mem_rows_of_mem_comments hEntry)
  intro row hRow
  rcases (Decisions.made target source.comments).exists_of_mem_rows hRow with
    ⟨n, text, hOld, rfl⟩ | ⟨entry, hEntry, rfl⟩
  · rw [List.mem_append, not_or]
    refine ⟨hTarget text hOld, fun hFeed => ?_⟩
    obtain ⟨entry, hEntry, hTrailer⟩ := List.mem_flatMap.mp hFeed
    have hMem := (List.mem_filter.mp (List.mem_filter.mp hEntry).1).1
    have hBody : '\n' ∈ entry.2.body := by
      simpa [Comment.trailer, marker] using hTrailer
    exact hText entry hMem ((allRead_comments source entry hMem).body_suffix.subset hBody)
  · exact hText entry (List.mem_filter.mp hEntry).1

end Document

/-- **The text form is lossless.** The document that a text is has no line feeds
in its rows and is written as that text; read again, it is the same document. A
text without comments changes no text that its comments are put into. -/
theorem text_form_is_lossless (levelWidth : Nat) (text : Text) :
    (Document.ofText levelWidth text).toText = text ∧
    (∀ row ∈ (Document.ofText levelWidth text).rows, '\n' ∉ row) ∧
    Document.ofText levelWidth (Document.ofText levelWidth text).toText
      = Document.ofText levelWidth text ∧
    ∀ source, (∀ row ∈ (Document.ofText levelWidth source).readRows, row.comment? = none) →
      carryComments levelWidth source text = text := by
  have hText := Document.toText_ofText levelWidth text
  refine ⟨hText, Document.oneLined_ofText levelWidth text, by rw [hText], ?_⟩
  intro source hRows
  rw [carryComments, Document.comments_eq_empty hRows, Document.annotate_empty]
  exact hText

/-- A source of a single row of data, and a text with both line endings, a stray
carriage return and blank rows at its end. -/
theorem text_form_is_lossless_mixed :
    (∀ row ∈ (Document.ofText 4 "a: 1".toList).readRows, row.comment? = none) ∧
    carryComments 4 "a: 1".toList "a: 1 # x\n\rb:\r\n\n\r\n".toList
      = "a: 1 # x\n\rb:\r\n\n\r\n".toList := by
  have hRows : ∀ row ∈ (Document.ofText 4 "a: 1".toList).readRows, row.comment? = none := by decide
  exact ⟨hRows, (text_form_is_lossless 4 _).2.2.2 _ hRows⟩

end Marginalia
