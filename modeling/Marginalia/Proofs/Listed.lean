import Marginalia.Listing
import Marginalia.Proofs.Ancestry
import Marginalia.Proofs.TextForm

/-!
# Listings line by line

A listing shows each comment of a document on a line of its own. No row of a text's
document has a line feed in it, so no part of a row has one, and what a listing
says about a comment is made of parts of rows: the words are a part of the row of
the comment, the keys of a path are parts of the rows that enclose its line.

## Results

* `Document.feed_not_mem_toText_path` — no path of such a document has a line feed in its text.
* `Document.feed_not_mem_anchor`      — nor has an anchor in words.
* `Listing.count_feed_table`          — a table of such entries has a line for each of them.
* `Document.count_feed_listing`       — so has the table that lists a document.
-/

namespace Marginalia

-- ---------------------------------------------------------------------------
-- Parts of a text
-- ---------------------------------------------------------------------------

namespace Text

theorem strip_subset (p : Char → Bool) (t : Text) : strip p t ⊆ t := by
  intro c hc
  rw [strip, stripEnd, List.mem_reverse] at hc
  have hStart := List.mem_reverse.mp ((List.dropWhile_suffix p).subset hc)
  exact (List.dropWhile_suffix p).subset hStart

/-- What stands in pieces put together stands in a piece or between two. -/
theorem mem_intercalate {sep : Text} {pieces : List Text} {c : Char}
    (hMem : c ∈ sep.intercalate pieces) : c ∈ sep ∨ ∃ piece ∈ pieces, c ∈ piece := by
  induction pieces with
  | nil => cases hMem
  | cons piece rest ih =>
    cases rest with
    | nil => exact .inr ⟨piece, List.mem_cons_self, by simpa using hMem⟩
    | cons next rest =>
      rw [List.intercalate_cons_cons, List.mem_append, List.mem_append] at hMem
      rcases hMem with (hHere | hSep) | hLater
      · exact .inr ⟨piece, List.mem_cons_self, hHere⟩
      · exact .inl hSep
      · rcases ih hLater with hSep | ⟨other, hOther, hc⟩
        · exact .inl hSep
        · exact .inr ⟨other, List.mem_cons_of_mem _ hOther, hc⟩

/-- A text is read back with the line feeds that it was kept with. -/
theorem feed_not_mem_readBack {t : Text} (hFeed : '\n' ∉ t) : '\n' ∉ t.maskMarkers.unmaskMarkers := by
  have hMask : (marker :: markerMask).countP (· == '\n') = 0 := by decide
  rw [← List.count_eq_zero, List.count] at hFeed ⊢
  rw [countP_unmaskMarkers hMask, countP_maskMarkers hMask, hFeed]

end Text

theorem feed_not_mem_decimal (n : Nat) : '\n' ∉ decimal n :=
  fun hMem => absurd (isDigit_of_mem_decimal hMem) (by decide)

/-- An anchor has no line feed in words if the path of its line has none. -/
theorem Anchor.feed_not_mem_inWords (anchor : Anchor)
    (hPath : ∀ line, anchor = .data line → ∀ p, line.path? = some p → '\n' ∉ p.toText) (first : Nat) :
    '\n' ∉ anchor.inWords first := by
  have hNumbered : ∀ lead : Text, '\n' ∉ lead → ∀ n, '\n' ∉ lead ++ decimal n := by
    intro lead hLead n
    rw [List.mem_append, not_or]
    exact ⟨hLead, feed_not_mem_decimal n⟩
  unfold inWords
  cases anchor with
  | data line =>
    dsimp only
    split
    · next p hLine => exact hPath line rfl p hLine
    · exact hNumbered "line ".toList (by decide) (first + line.number)
  | comment line => exact hNumbered "comment at line ".toList (by decide) (first + line.number)
  | bottom =>
    dsimp only
    decide

theorem Entry.feed_not_mem_key {data : Text} (hFeed : '\n' ∉ data) : '\n' ∉ (ofData data).key := by
  unfold ofData
  split
  · show '\n' ∉ itemKey
    decide
  · split
    · apply Text.feed_not_mem_readBack
      intro hMem
      exact hFeed ((List.takeWhile_prefix _).subset (Text.strip_subset isIndent _ hMem))
    · exact List.not_mem_nil

theorem Row.feed_not_mem_key {number : Nat} {text : Text} (hFeed : '\n' ∉ text) {line : Line}
    (hLine : (read number text).dataLine? = some line) : '\n' ∉ line.key := by
  rw [dataLine?_read] at hLine
  split at hLine
  · cases hLine
  · obtain rfl := Option.some.inj hLine
    exact Entry.feed_not_mem_key hFeed
  · cases hLine
  · next before body hForm =>
    obtain rfl := Option.some.inj hLine
    apply Entry.feed_not_mem_key
    have hSplit := Text.splitAtMarker_eq_some ((Text.form_eq_inline_iff text before body).mp hForm).2
    intro hMem
    rw [hSplit] at hFeed
    exact hFeed (List.mem_append_left _ (Text.strip_subset isBlank _ hMem))

namespace Document

-- ---------------------------------------------------------------------------
-- Paths and anchors
-- ---------------------------------------------------------------------------

variable {d : Document} {n : Nat}

theorem feed_not_mem_toText_step (hLined : d.OneLined) {s : Step} (hStep : d.stepAt? n = some s) :
    '\n' ∉ s.toText := by
  obtain ⟨line, hLine, rfl⟩ := Option.map_eq_some_iff.mp hStep
  obtain ⟨text, hText, hRead⟩ := Option.bind_eq_some_iff.mp hLine
  split
  · exact feed_not_mem_decimal _
  · exact Row.feed_not_mem_key (hLined text (List.mem_of_getElem? hText)) hRead

/-- No path of a document without line feeds in its rows has one in its text. -/
theorem feed_not_mem_toText_path (hLined : d.OneLined) {p : Path} (hPath : d.pathAt? n = some p) :
    '\n' ∉ p.toText := by
  rw [pathAt?_eq_ancestry] at hPath
  obtain ⟨line, -, rfl⟩ := Option.map_eq_some_iff.mp hPath
  intro hMem
  rcases Text.mem_intercalate hMem with hDot | ⟨part, hPart, hFeed⟩
  · exact absurd hDot (by decide)
  · obtain ⟨s, hs, rfl⟩ := List.mem_map.mp hPart
    obtain ⟨j, -, hStep⟩ := List.mem_filterMap.mp hs
    exact feed_not_mem_toText_step hLined hStep hFeed

/-- The line that a comment belongs to has a path of the document, if it has one. -/
theorem exists_pathAt?_of_anchor {entry : Nat × Comment} (hEntry : entry ∈ d.comments.entries)
    {line : Line} (hAnchor : entry.2.anchor? = some (.data line)) :
    ∃ n, d.pathAt? n = line.path? := by
  cases anchored_of_mem_comments hEntry with
  | own hOwn _ _ hPath =>
    obtain rfl := Anchor.data.inj (Option.some.inj (hOwn.symm.trans hAnchor))
    exact ⟨_, hPath⟩
  | line below hBelow _ _ _ hPath =>
    obtain rfl := Anchor.data.inj (Option.some.inj (hBelow.symm.trans hAnchor))
    exact ⟨_, hPath⟩
  | comment _ hComment => cases hComment.symm.trans hAnchor
  | bottom hBottom => cases hBottom.symm.trans hAnchor

theorem feed_not_mem_anchor (hLined : d.OneLined) {entry : Nat × Comment}
    (hEntry : entry ∈ d.comments.entries) : '\n' ∉ entry.2.listed.anchor := by
  rw [Comment.listed]
  cases hAnchor : entry.2.anchor? with
  | none => exact List.not_mem_nil
  | some anchor =>
    apply anchor.feed_not_mem_inWords
    rintro line rfl p hLine
    obtain ⟨n, hPath⟩ := exists_pathAt?_of_anchor hEntry hAnchor
    exact feed_not_mem_toText_path hLined (hPath.trans hLine)

theorem feed_not_mem_words (hLined : d.OneLined) {entry : Nat × Comment}
    (hEntry : entry ∈ d.comments.entries) : '\n' ∉ entry.2.listed.words := by
  have hText := hLined _ (text_mem_rows_of_mem_comments hEntry)
  intro hMem
  exact hText ((allRead_comments d entry hEntry).body_suffix.subset (Text.strip_subset isBlank _ hMem))

end Document

namespace Listing

-- ---------------------------------------------------------------------------
-- The lines of a table
-- ---------------------------------------------------------------------------

theorem feed_not_mem_fit {field : Field} (hFill : field.fill ≠ '\n') {t : Text} (hFeed : '\n' ∉ t) :
    '\n' ∉ field.fit t := by
  have hCut : '\n' ∉ field.cut t := by
    unfold Field.cut
    split
    · exact hFeed
    · exact fun hMem => hFeed ((List.take_prefix _ t).subset hMem)
  simp [Field.fit, hCut, Ne.symm hFill]

/-- An entry without line feeds in its parts is shown on one line. -/
theorem feed_not_mem_tableRow {comment : ListedComment} (hAnchor : '\n' ∉ comment.anchor)
    (hWords : '\n' ∉ comment.words) : '\n' ∉ tableRow comment := by
  have hName : '\n' ∉ comment.form.name := by cases comment.form <;> decide
  have hLine : '\n' ∉ lineColumn.fit (decimal comment.line) :=
    feed_not_mem_fit (by decide) (feed_not_mem_decimal _)
  have hForm : '\n' ∉ formColumn.fit comment.form.name := feed_not_mem_fit (by decide) hName
  have hPlace : '\n' ∉ anchorColumn.fit comment.anchor := feed_not_mem_fit (by decide) hAnchor
  intro hMem
  rw [tableRow, Text.stripEnd, List.mem_reverse] at hMem
  have hAll := List.mem_reverse.mp ((List.dropWhile_suffix isBlank).subset hMem)
  simp [hLine, hForm, hPlace, hWords] at hAll

/-- A table of such entries has a line for each of them. -/
theorem count_feed_table {comments : List ListedComment}
    (hParts : ∀ comment ∈ comments, '\n' ∉ comment.anchor ∧ '\n' ∉ comment.words) :
    (table comments).count '\n' = comments.length := by
  induction comments with
  | nil => rfl
  | cons comment rest ih =>
    obtain ⟨hAnchor, hWords⟩ := hParts comment List.mem_cons_self
    have hRest := ih fun other hOther => hParts other (List.mem_cons_of_mem _ hOther)
    rw [table] at hRest
    rw [table, List.flatMap_cons, List.count_append, hRest, List.count_append,
      List.count_eq_zero.mpr (feed_not_mem_tableRow hAnchor hWords), List.length_cons]
    simp [Nat.add_comm]

end Listing

/-- The table that lists the document of a text has a line for each comment. -/
theorem Document.count_feed_listing (levelWidth : Nat) (text : Text) :
    (Listing.table (Listing.ofDocument (ofText levelWidth text))).count '\n'
      = (ofText levelWidth text).comments.size := by
  have hLined := oneLined_ofText levelWidth text
  rw [← Listing.length_ofDocument]
  apply Listing.count_feed_table
  intro comment hComment
  obtain ⟨entry, hEntry, rfl⟩ := List.mem_map.mp hComment
  exact ⟨feed_not_mem_anchor hLined hEntry, feed_not_mem_words hLined hEntry⟩

end Marginalia
