import Marginalia.Proofs.Addressing

/-!
# Comments above comments

A comment that stood above another comment follows it. The comments with rows of
their own are put in from the last one up, so when it is the turn of a comment that
stood above another one, that other one was dealt with in the step before, if it is
among the comments at all. Then either it was put in and is found where it was put,
by its number and not by its text, or it was left out and the comment above it is
left out as well.

A collection may have been edited, and the comment below taken out of it. No step
has the number of a comment that is not there, so it is looked for by its text, in
the document as it is then.

## Results

* `Progress.insertionLine?_insert_eq` — a comment has the place that the one below it had in the step before.
* `Progress.exists_of_mem_orphans_foldr`, `Progress.exists_of_latest?_foldr` — a run tells of no comments but its own.
* `Document.exists_below_of_anchor?`  — the comment that a comment stood above.
* `comment_goes_with_comment_below`   — what becomes of a comment that stood above another one.
-/

namespace Marginalia

namespace Document

variable {d : Document} {text : Text} {place : Nat}

/-- The line of a text is the first row that has it. -/
theorem lineOfText?_eq_some_iff :
    d.lineOfText? text = some place ↔
      d.textAt? place = some text ∧ ∀ k < place, d.textAt? k ≠ some text := by
  rw [lineOfText?, List.idxOf?, List.findIdx?_eq_some_iff_getElem]
  simp only [beq_iff_eq, textAt?]
  constructor
  · rintro ⟨hLt, hText, hFirst⟩
    refine ⟨List.getElem?_eq_some_iff.mpr ⟨hLt, hText⟩, fun k hk hOther => ?_⟩
    exact hFirst k hk (List.getElem?_eq_some_iff.mp hOther).2
  · rintro ⟨hText, hFirst⟩
    obtain ⟨hLt, hEq⟩ := List.getElem?_eq_some_iff.mp hText
    refine ⟨hLt, hEq, fun k hk hOther => hFirst k hk ?_⟩
    exact List.getElem?_eq_some_iff.mpr ⟨Nat.lt_trans hk hLt, hOther⟩

theorem lineOfText?_eq_none_iff : d.lineOfText? text = none ↔ ∀ k, d.textAt? k ≠ some text := by
  rw [lineOfText?, List.idxOf?_eq_none_iff]
  simp only [List.mem_iff_getElem?, textAt?, not_exists, ne_eq]

end Document

namespace Progress

/-- The progress once the steps for these entries were made, from the last one up,
after those of the inline comments. With all entries that are no inline comments it
is complete. -/
def reached (d : Document) (comments : Collection) (entries : List (Nat × Comment)) : Progress :=
  entries.foldr insert (writeAll d comments)

theorem reached_cons (d : Document) (comments : Collection) (entry : Nat × Comment)
    (entries : List (Nat × Comment)) :
    reached d comments (entry :: entries) = insert entry (reached d comments entries) :=
  rfl

-- ---------------------------------------------------------------------------
-- What a step does
-- ---------------------------------------------------------------------------

/-- The next step puts the row of the comment in right above row `place`, or at the
end of the document if that is `place`. -/
structure PutsIn (progress : Progress) (entry : Nat × Comment) (place : Nat) : Prop where
  place_le : place ≤ progress.document.length
  document : (insert entry progress).document = progress.document.insertAt place entry.2.line.text
  placed : (insert entry progress).placed = progress.placed + 1
  orphans : (insert entry progress).orphans = progress.orphans

/-- The next step leaves the comment out. -/
structure LeavesOut (progress : Progress) (entry : Nat × Comment) : Prop where
  document : (insert entry progress).document = progress.document
  placed : (insert entry progress).placed = progress.placed
  orphans : (insert entry progress).orphans = entry.1 :: progress.orphans

variable {progress start : Progress} {entry : Nat × Comment} {comment below : Comment} {line : Line}
  {place m : Nat}

theorem putsIn_of_insertionLine? (hLine : progress.insertionLine? entry.2 = some place) :
    progress.PutsIn entry place := by
  have hInsert := insert_of_some hLine
  exact ⟨insertionLine?_le hLine, by rw [hInsert], by rw [hInsert], by rw [hInsert]⟩

theorem leavesOut_of_insertionLine? (hLine : progress.insertionLine? entry.2 = none) :
    progress.LeavesOut entry := by
  have hInsert := insert_of_none hLine
  exact ⟨by rw [hInsert], by rw [hInsert], by rw [hInsert]⟩

/-- Where the row of a comment is after it was put in. -/
theorem PutsIn.textAt? (hPuts : progress.PutsIn entry place) :
    (insert entry progress).document.textAt? place = some entry.2.line.text := by
  have hSelf := Document.textAt?_insertAt_self progress.document place entry.2.line.text
  rwa [Nat.min_eq_left hPuts.place_le, ← hPuts.document] at hSelf

/-- The row that was there before is the next one. -/
theorem PutsIn.textAt?_succ (hPuts : progress.PutsIn entry place) :
    (insert entry progress).document.textAt? (place + 1) = progress.document.textAt? place := by
  rw [hPuts.document, Document.textAt?_insertAt_succ hPuts.place_le]

/-- What two steps do with a comment and the one above it: the one above is put in
where the other one was put in just before, so that they stand one above the other,
or both are left out. -/
inductive Together (progress : Progress) (lower upper : Nat × Comment) : Prop
  | placed {place : Nat} (hLower : progress.PutsIn lower place)
      (hUpper : (insert lower progress).PutsIn upper place)
      (hAbove : (insert upper (insert lower progress)).document.textAt? place = some upper.2.line.text)
      (hBelow : (insert upper (insert lower progress)).document.textAt? (place + 1)
        = some lower.2.line.text)
  | leftOut (hLower : progress.LeavesOut lower) (hUpper : (insert lower progress).LeavesOut upper)

/-- What a step does that looks for a text: the comment is put in above the first row
that has it, or left out if no row does. -/
inductive PlacesByText (progress : Progress) (text : Text) (entry : Nat × Comment) : Prop
  | placed {place : Nat} (hText : progress.document.textAt? place = some text)
      (hFirst : ∀ k < place, progress.document.textAt? k ≠ some text) (hPuts : progress.PutsIn entry place)
  | leftOut (hNone : ∀ k, progress.document.textAt? k ≠ some text) (hLeft : progress.LeavesOut entry)

theorem together_of_insertionLine?_eq {lower upper : Nat × Comment}
    (hSame : (insert lower progress).insertionLine? upper.2 = progress.insertionLine? lower.2) :
    progress.Together lower upper := by
  cases hLine : progress.insertionLine? lower.2 with
  | none =>
    exact .leftOut (leavesOut_of_insertionLine? hLine) (leavesOut_of_insertionLine? (hSame.trans hLine))
  | some place =>
    have hLower := putsIn_of_insertionLine? hLine
    have hUpper := putsIn_of_insertionLine? (hSame.trans hLine)
    exact .placed hLower hUpper hUpper.textAt? (hUpper.textAt?_succ.trans hLower.textAt?)

theorem placesByText_of_insertionLine?_eq {text : Text}
    (hSame : progress.insertionLine? entry.2 = progress.document.lineOfText? text) :
    progress.PlacesByText text entry := by
  cases hLine : progress.document.lineOfText? text with
  | none =>
    exact .leftOut (Document.lineOfText?_eq_none_iff.mp hLine)
      (leavesOut_of_insertionLine? (hSame.trans hLine))
  | some place =>
    obtain ⟨hText, hFirst⟩ := Document.lineOfText?_eq_some_iff.mp hLine
    exact .placed hText hFirst (putsIn_of_insertionLine? (hSame.trans hLine))

-- ---------------------------------------------------------------------------
-- One step after the other
-- ---------------------------------------------------------------------------

/-- The place of a comment that stood above another one. -/
theorem insertionLine?_of_comment (hAnchor : comment.anchor? = some (.comment line)) :
    progress.insertionLine? comment = if line.number ∈ progress.orphans then none
      else (progress.latestOn? line).or (progress.document.lineOfText? line.text) := by
  rw [insertionLine?, insertionLineBy, hAnchor]

/-- **A comment above one that was just dealt with** has the place that this one had.
The number of this one must not be among those left out before. -/
theorem insertionLine?_insert_eq (hFresh : m ∉ progress.orphans)
    (hAnchor : comment.anchor? = some (.comment line)) (hNumber : line.number = m)
    (hText : line.text = below.line.text) :
    (insert (m, below) progress).insertionLine? comment = progress.insertionLine? below := by
  cases hLine : progress.insertionLine? below with
  | none =>
    have hLeft : progress.LeavesOut (m, below) := leavesOut_of_insertionLine? hLine
    have hLost : line.number ∈ (insert (m, below) progress).orphans := by
      rw [hLeft.orphans, hNumber]
      exact List.mem_cons_self
    rw [insertionLine?_of_comment hAnchor, if_pos hLost]
  | some place =>
    have hPuts : progress.PutsIn (m, below) place := putsIn_of_insertionLine? hLine
    have hKept : line.number ∉ (insert (m, below) progress).orphans := by
      rwa [hPuts.orphans, hNumber]
    have hLast : (insert (m, below) progress).latest? = some (m, place) :=
      congrArg latest? (insert_of_some hLine)
    have hLatest : (insert (m, below) progress).latestOn? line = some place := by
      rw [latestOn?, hLast, Option.bind_some]
      exact if_pos ⟨hNumber.symm, by rw [hPuts.textAt?, hText]⟩
    rw [insertionLine?_of_comment hAnchor, if_neg hKept, hLatest, Option.some_or]

/-- A comment above one that no step was made for is put in above the first row with
the text of that one. -/
theorem insertionLine?_of_unknown (hAnchor : comment.anchor? = some (.comment line))
    (hLost : line.number ∉ progress.orphans)
    (hLatest : ∀ last ∈ progress.latest?, last.1 ≠ line.number) :
    progress.insertionLine? comment = progress.document.lineOfText? line.text := by
  have hNot : progress.latestOn? line = none := by
    rw [latestOn?, Option.bind_eq_none_iff]
    intro last hLast
    exact if_neg fun hSame => hLatest last hLast hSame.1
  rw [insertionLine?_of_comment hAnchor, if_neg hLost, hNot, Option.none_or]

-- ---------------------------------------------------------------------------
-- What a run tells of
-- ---------------------------------------------------------------------------

/-- The comments left out in a run are comments of the run. -/
theorem exists_of_mem_orphans_foldr {entries : List (Nat × Comment)}
    (hOrphan : m ∈ (entries.foldr insert start).orphans) :
    m ∈ start.orphans ∨ ∃ entry ∈ entries, entry.1 = m := by
  induction entries with
  | nil => exact .inl hOrphan
  | cons entry rest ih =>
    rw [List.foldr_cons] at hOrphan
    have hOlder : m ∈ (rest.foldr insert start).orphans →
        m ∈ start.orphans ∨ ∃ other ∈ entry :: rest, other.1 = m := fun hMem =>
      (ih hMem).imp_right fun ⟨other, hOther, hNumber⟩ => ⟨other, List.mem_cons_of_mem _ hOther, hNumber⟩
    cases hLine : (rest.foldr insert start).insertionLine? entry.2 with
    | none =>
      rw [(leavesOut_of_insertionLine? hLine).orphans] at hOrphan
      rcases List.mem_cons.mp hOrphan with rfl | hMem
      · exact .inr ⟨entry, List.mem_cons_self, rfl⟩
      · exact hOlder hMem
    | some place =>
      rw [(putsIn_of_insertionLine? hLine).orphans] at hOrphan
      exact hOlder hOrphan

/-- The comment that was put in last in a run is a comment of the run. -/
theorem exists_of_latest?_foldr {entries : List (Nat × Comment)} (hStart : start.latest? = none)
    {last : Nat × Nat} (hLast : (entries.foldr insert start).latest? = some last) :
    ∃ entry ∈ entries, entry.1 = last.1 := by
  cases entries with
  | nil =>
    rw [List.foldr_nil, hStart] at hLast
    cases hLast
  | cons entry rest =>
    refine ⟨entry, List.mem_cons_self, ?_⟩
    rw [List.foldr_cons] at hLast
    cases hLine : (rest.foldr insert start).insertionLine? entry.2 with
    | none =>
      rw [insert_of_none hLine] at hLast
      cases hLast
    | some place =>
      rw [insert_of_some hLine] at hLast
      exact congrArg Prod.fst (Option.some.inj hLast)

/-- The run of the inline comments puts in none, and leaves out none but inline
comments. -/
theorem latest?_writeAll (d : Document) (comments : Collection) :
    (writeAll d comments).latest? = none := by
  rw [writeAll, foldl_write (Decisions.made d comments).carries]

theorem exists_of_mem_orphans_writeAll {d : Document} {comments : Collection}
    (hOrphan : m ∈ (writeAll d comments).orphans) : ∃ entry ∈ comments.inlineEntries, entry.1 = m := by
  rw [writeAll, foldl_write (Decisions.made d comments).carries, List.append_nil, List.mem_reverse,
    List.mem_map] at hOrphan
  obtain ⟨entry, hEntry, hNumber⟩ := hOrphan
  exact ⟨entry, (List.mem_filter.mp hEntry).1, hNumber⟩

end Progress

-- ---------------------------------------------------------------------------
-- The comment below
-- ---------------------------------------------------------------------------

/-- Next to an entry of an ascending list stands the entry with the next number, if
there is one. -/
theorem exists_cons_of_succ_mem {before after : List (Nat × Comment)} {n : Nat} {comment next : Comment}
    (hAscending : (before ++ (n, comment) :: after).Pairwise fun a b => a.1 < b.1)
    (hNext : (n + 1, next) ∈ before ++ (n, comment) :: after) : ∃ rest, after = (n + 1, next) :: rest := by
  obtain ⟨-, hAfter, hCross⟩ := List.pairwise_append.mp hAscending
  obtain ⟨hAbove, hRest⟩ := List.pairwise_cons.mp hAfter
  have hMem : (n + 1, next) ∈ after := by
    rcases List.mem_append.mp hNext with hBefore | hHere
    · have : n + 1 < n := hCross _ hBefore _ List.mem_cons_self
      omega
    · rcases List.mem_cons.mp hHere with hSame | hLater
      · have : n + 1 = n := congrArg Prod.fst hSame
        omega
      · exact hLater
  cases after with
  | nil => cases hMem
  | cons first rest =>
    rcases List.mem_cons.mp hMem with rfl | hLater
    · exact ⟨rest, rfl⟩
    · -- nothing fits between two consecutive numbers
      have hFirst : n < first.1 := hAbove first List.mem_cons_self
      have hLt : first.1 < n + 1 := (List.pairwise_cons.mp hRest).1 _ hLater
      omega

/-- **The comment that a comment stood above** has its row right below, and its
number and its text are those of the anchor. -/
theorem Document.exists_below_of_anchor? {d : Document} {n : Nat} {comment : Comment} {line : Line}
    (hEntry : (n, comment) ∈ d.comments.entries) (hAnchor : comment.anchor? = some (.comment line)) :
    (∃ below : Comment, (n + 1, below) ∈ d.comments.entries ∧ below.isInline = false ∧
      below.line = line) ∧ line.number = n + 1 ∧ d.textAt? (n + 1) = some line.text := by
  cases anchored_of_mem_comments hEntry with
  | own hOwn => cases hOwn.symm.trans hAnchor
  | line _ hData => cases hData.symm.trans hAnchor
  | comment below hBelowAnchor _ hBelow hInline =>
    obtain rfl := Anchor.comment.inj (Option.some.inj (hBelowAnchor.symm.trans hAnchor))
    obtain ⟨hNumber, hText⟩ := line_of_mem_comments hBelow
    exact ⟨⟨below, hBelow, hInline, rfl⟩, hNumber, hText⟩
  | bottom hBottom => cases hBottom.symm.trans hAnchor

-- ---------------------------------------------------------------------------
-- Edited collections
-- ---------------------------------------------------------------------------

section Edited

variable {source target : Document} {comments : Collection} {before after : List (Nat × Comment)}
  {n m : Nat} {comment next : Comment} {line : Line}

/-- What is left out before the step of a comment are inline comments and comments
that had their steps. -/
theorem exists_of_mem_orphans_run (hSplit : comments.rowEntries = before ++ after)
    (hOrphan : m ∈ (Progress.reached target comments after).orphans) :
    ∃ entry ∈ comments.entries, entry.1 = m ∧ (entry.2.isInline = true ∨ entry ∈ after) := by
  rcases Progress.exists_of_mem_orphans_foldr hOrphan with hInline | ⟨entry, hEntry, hNumber⟩
  · obtain ⟨entry, hEntry, hNumber⟩ := Progress.exists_of_mem_orphans_writeAll hInline
    obtain ⟨hMem, hIs⟩ := List.mem_filter.mp hEntry
    exact ⟨entry, hMem, hNumber, .inl hIs⟩
  · have hRow : entry ∈ comments.rowEntries := hSplit ▸ List.mem_append_right before hEntry
    exact ⟨entry, (List.mem_filter.mp hRow).1, hNumber, .inr hEntry⟩

/-- A comment is reported as left out exactly if there was no place for it at its
step. -/
theorem mem_orphans_annotate_iff_insertionLine?
    (hSplit : comments.rowEntries = before ++ (n, comment) :: after) :
    n ∈ (target.annotate comments).orphans ↔
      (Progress.reached target comments after).insertionLine? comment
        = none := by
  have decisions := Decisions.made target comments
  have hRow : (n, comment) ∈ comments.rowEntries :=
    hSplit ▸ List.mem_append_right before List.mem_cons_self
  obtain ⟨hEntry, hInline⟩ := List.mem_filter.mp hRow
  have hFinds := decisions.mem_orphans_annotate_iff hEntry
  rw [Decisions.finds, if_neg (by simpa using hInline), ← decisions.lands_rows before _ after hSplit,
    Option.isSome_eq_false_iff, Option.isNone_iff_eq_none] at hFinds
  exact hFinds

/-- In a collection that was taken from a document and from which comments may have
been taken out, the comment below is the one that had its step just before. -/
theorem exists_cons_of_below (hTaken : ∀ entry ∈ comments.entries, entry ∈ source.comments.entries)
    (hSplit : comments.rowEntries = before ++ (n, comment) :: after)
    (hAnchor : comment.anchor? = some (.comment line)) (hNext : comments.get? (n + 1) = some next) :
    next.line = line ∧ ∃ rest, after = (n + 1, next) :: rest ∧
      n + 1 ∉ (Progress.reached target comments rest).orphans := by
  have hRow : (n, comment) ∈ comments.rowEntries :=
    hSplit ▸ List.mem_append_right before List.mem_cons_self
  have hNextEntry := Collection.get?_eq_some_iff.mp hNext
  obtain ⟨⟨below, hBelow, hInline, hLine⟩, -⟩ :=
    Document.exists_below_of_anchor? (hTaken _ (List.mem_filter.mp hRow).1) hAnchor
  obtain rfl : next = below :=
    congrArg Prod.snd (Collection.eq_of_number_eq (hTaken _ hNextEntry) hBelow rfl)
  have hNextRow : (n + 1, next) ∈ comments.rowEntries :=
    List.mem_filter.mpr ⟨hNextEntry, by rw [hInline]; rfl⟩
  have hAscending : comments.rowEntries.Pairwise fun a b => a.1 < b.1 := comments.ascending.filter _
  rw [hSplit] at hNextRow hAscending
  obtain ⟨rest, rfl⟩ := exists_cons_of_succ_mem hAscending hNextRow
  refine ⟨hLine, rest, rfl, fun hOrphan => ?_⟩
  have hRest : comments.rowEntries = before ++ [(n, comment)] ++ [(n + 1, next)] ++ rest := by
    rw [hSplit, List.append_cons, List.append_cons]
  obtain ⟨entry, hEntry, hNumber, hWhere⟩ := exists_of_mem_orphans_run hRest hOrphan
  obtain rfl : entry = (n + 1, next) := Collection.eq_of_number_eq hEntry hNextEntry hNumber
  rcases hWhere with hIs | hMem
  · rw [hInline] at hIs
    cases hIs
  · have hLater := (List.pairwise_cons.mp (List.pairwise_append.mp hAscending).2.1).2
    have : n + 1 < n + 1 := (List.pairwise_cons.mp hLater).1 _ hMem
    omega

variable (target) in
/-- If the comment below was taken out of the collection, the comment is put in above
the first row with the text of the comment below. -/
theorem insertionLine?_of_below_missing (hSplit : comments.rowEntries = before ++ (n, comment) :: after)
    (hAnchor : comment.anchor? = some (.comment line)) (hNumber : line.number = n + 1)
    (hNone : comments.get? (n + 1) = none) :
    (Progress.reached target comments after).insertionLine? comment
      = (Progress.reached target comments after).document.lineOfText?
          line.text := by
  have hMissing : ∀ entry ∈ comments.entries, entry.1 ≠ n + 1 := by
    rintro ⟨k, other⟩ hEntry rfl
    rw [Collection.get?_eq_some_iff.mpr hEntry] at hNone
    cases hNone
  have hAfter : comments.rowEntries = before ++ [(n, comment)] ++ after := by
    rw [hSplit, List.append_cons]
  apply Progress.insertionLine?_of_unknown hAnchor
  · rw [hNumber]
    intro hOrphan
    obtain ⟨entry, hEntry, hSame, -⟩ := exists_of_mem_orphans_run hAfter hOrphan
    exact hMissing entry hEntry hSame
  · intro last hLast hSame
    obtain ⟨entry, hEntry, hLastNumber⟩ :=
      Progress.exists_of_latest?_foldr (Progress.latest?_writeAll target comments) hLast
    have hRow : entry ∈ comments.rowEntries := hAfter ▸ List.mem_append_right _ hEntry
    exact hMissing entry (List.mem_filter.mp hRow).1 (hLastNumber.trans (hSame.trans hNumber))

end Edited

/-- **A comment goes with the comment below it.** Let comments be taken from a
document, any of them taken out again and the rest put into another document, and
consider the step of a comment that stood above another one. If that other one is
there, it had its step just before; the comment is put in at the very same place,
right above it, or is left out with it. If it was taken out, the comment is put in
above the first row that has its text, in the document as it is then, and left out
if there is no such row. -/
theorem comment_goes_with_comment_below {source target : Document} {comments : Collection}
    (hTaken : ∀ entry ∈ comments.entries, entry ∈ source.comments.entries)
    {before after : List (Nat × Comment)} {n : Nat} {comment : Comment} {line : Line}
    (hSplit : comments.rowEntries = before ++ (n, comment) :: after)
    (hAnchor : comment.anchor? = some (.comment line)) :
    line.number = n + 1 ∧ source.textAt? (n + 1) = some line.text ∧
    (∀ next, comments.get? (n + 1) = some next →
      next.line = line ∧
      (n ∈ (target.annotate comments).orphans ↔ n + 1 ∈ (target.annotate comments).orphans) ∧
      ∃ rest, after = (n + 1, next) :: rest ∧
        (Progress.reached target comments rest).Together (n + 1, next) (n, comment)) ∧
    (comments.get? (n + 1) = none →
      (Progress.reached target comments after).PlacesByText line.text (n, comment) ∧
      (n ∈ (target.annotate comments).orphans ↔
        ∀ k, (Progress.reached target comments after).document.textAt? k ≠ some line.text)) := by
  have hRow : (n, comment) ∈ comments.rowEntries :=
    hSplit ▸ List.mem_append_right before List.mem_cons_self
  obtain ⟨-, hNumber, hText⟩ :=
    Document.exists_below_of_anchor? (hTaken _ (List.mem_filter.mp hRow).1) hAnchor
  refine ⟨hNumber, hText, fun next hNext => ?_, fun hNone => ?_⟩
  · obtain ⟨hLine, rest, rfl, hFresh⟩ := exists_cons_of_below hTaken hSplit hAnchor hNext
    have hNextSplit : comments.rowEntries = before ++ [(n, comment)] ++ (n + 1, next) :: rest := by
      rw [hSplit, List.append_cons]
    have hSame : (Progress.insert (n + 1, next)
        (Progress.reached target comments rest)).insertionLine? comment
          = (Progress.reached target comments rest).insertionLine? next :=
      Progress.insertionLine?_insert_eq hFresh hAnchor hNumber (congrArg Line.text hLine.symm)
    refine ⟨hLine, ?_, rest, rfl, Progress.together_of_insertionLine?_eq hSame⟩
    rw [mem_orphans_annotate_iff_insertionLine? hSplit, Progress.reached_cons, hSame,
      mem_orphans_annotate_iff_insertionLine? hNextSplit]
  · have hByText := insertionLine?_of_below_missing target hSplit hAnchor hNumber hNone
    refine ⟨Progress.placesByText_of_insertionLine?_eq hByText, ?_⟩
    rw [mem_orphans_annotate_iff_insertionLine? hSplit, hByText, Document.lineOfText?_eq_none_iff]

/-- Of three comments, one above the other, the lowest was taken out. The one above
it goes to the first blank row of the other document, and the top one goes with
that. -/
theorem comment_goes_with_comment_below_blank :
    ∃ (source target : Document) (comments : Collection) (top blank : Comment),
      source.rows = ["a: 1".toList, "# x".toList, "".toList, "".toList, "b: 2".toList] ∧
      target.rows = ["a: 1".toList, "".toList, "b: 2".toList] ∧
      comments = source.comments.remove 3 ∧
      (∀ entry ∈ comments.entries, entry ∈ source.comments.entries) ∧
      comments.rowEntries = [(1, top), (2, blank)] ∧
      (Progress.reached target comments []).PlacesByText [] (2, blank) ∧
      (Progress.reached target comments []).Together (2, blank) (1, top) ∧
      (target.annotate comments).document.rows
        = ["a: 1".toList, "# x".toList, "".toList, "".toList, "b: 2".toList] := by
  let source := Document.ofRows 2 ["a: 1".toList, "# x".toList, "".toList, "".toList, "b: 2".toList]
  let target := Document.ofRows 2 ["a: 1".toList, "".toList, "b: 2".toList]
  let blank : Comment :=
    { line := .ofBlank 2 [], body := [], form := .blank, anchor? := some (.comment (.ofBlank 3 [])) }
  let top : Comment :=
    { line := .ofBlank 1 "# x".toList, body := " x".toList, form := .full,
      anchor? := some (.comment blank.line) }
  have hTaken : ∀ entry ∈ (source.comments.remove 3).entries, entry ∈ source.comments.entries :=
    fun entry hEntry => (List.mem_filter.mp hEntry).1
  have hEntries : (source.comments.remove 3).rowEntries = [(1, top), (2, blank)] := by decide
  obtain ⟨-, -, -, hByText⟩ := @comment_goes_with_comment_below source target (source.comments.remove 3)
    hTaken [(1, top)] [] 2 blank _ hEntries rfl
  obtain ⟨-, -, hBelow, -⟩ := @comment_goes_with_comment_below source target (source.comments.remove 3)
    hTaken [] [(2, blank)] 1 top _ hEntries rfl
  refine ⟨source, target, _, top, blank, rfl, rfl, rfl, hTaken, hEntries,
    (hByText (by decide)).1, ?_, by decide⟩
  obtain ⟨-, -, rest, hRest, hTogether⟩ := hBelow blank (by decide)
  obtain rfl : [] = rest := (List.cons.inj hRest).2
  exact hTogether

end Marginalia
