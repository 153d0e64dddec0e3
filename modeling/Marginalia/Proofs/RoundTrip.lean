import Marginalia.Proofs.Merge

/-!
# Taking the comments out and putting them back

A document without its comments is its rows with data, each up to its inline
comment. Those rows have the paths that they had before: the rows taken out had
none, and a row of data that is left of a longer row says the same, at the same
depth. If no path occurs twice then each row owns its path, so the comments find
their way back one by one.

## Results

* `Text.ofText?_bare`               — what is left of a row keeps its part in the outline.
* `Document.pathed_of_stripped`     — the rows left keep their paths.
* `Document.mergedRows_of_stripped` — each row gets its own comment back, and each block its own place.
* `annotate_stripped`               — the comments of a document put into what is left of it.
-/

namespace Marginalia

/-- Whether a row consists of data and an inline comment. -/
def RowForm.isInline : RowForm → Bool
  | inline _ _ => true
  | _ => false

namespace Text

/-- What is left of a row without its comment, if it has data: all of it, or
what stands before the first marker without the white space at its end. -/
def bare? (text : Text) : Option Text :=
  match text.form with
  | .blank => none
  | .data => some text
  | .full _ => none
  | .inline before _ => some (stripEnd isBlank before)

/-- A row with its inline comment written anew, with a single space before the
marker. -/
def rewritten (text : Text) : Text :=
  match text.form with
  | .inline before body => stripEnd isBlank before ++ ' ' :: marker :: body
  | _ => text

-- ---------------------------------------------------------------------------
-- What is left of a row
-- ---------------------------------------------------------------------------

theorem prefix_stripEnd (p : Char → Bool) (t : Text) : stripEnd p t <+: t :=
  ⟨_, stripEnd_append p t⟩

/-- The start of a text has no more white space at its own start than the text. -/
theorem mem_takeWhile_of_front {p : Char → Bool} {front t : Text} (hFront : front <+: t) :
    ∀ c ∈ front.takeWhile p, c ∈ t.takeWhile p := by
  obtain ⟨more, rfl⟩ := hFront
  intro c hc
  rw [List.takeWhile_append]
  split
  · exact List.mem_append_left _ ((List.takeWhile_prefix p).subset hc)
  · exact hc

/-- The data before an inline comment is data when it stands alone. -/
theorem form_stripEnd {text before body : Text} (hForm : text.form = .inline before body) :
    (stripEnd isBlank before).form = .data := by
  obtain ⟨hBefore, hSplit⟩ := (form_eq_inline_iff text before body).mp hForm
  rw [form_eq_data_iff, allBlank_stripEnd]
  exact ⟨hBefore, splitAtMarkerFrom_of_front hSplit (prefix_stripEnd isBlank before)⟩

/-- The data before an inline comment is tidy if its row is indented with spaces
and tabs. -/
theorem tidy_stripEnd {text before body : Text} (hForm : text.form = .inline before body)
    (hIndent : text.Indented) : (stripEnd isBlank before).Tidy where
  start := by
    have hText := splitAtMarker_eq_some ((form_eq_inline_iff text before body).mp hForm).2
    have hPrefix : stripEnd isBlank before <+: text :=
      (prefix_stripEnd isBlank before).trans ⟨marker :: body, hText.symm⟩
    intro c hc
    exact hIndent c (mem_takeWhile_of_front hPrefix c hc)
  finish := List.rdropWhile_idempotent isBlank before

/-- What is left of a row keeps its part in the outline. -/
theorem ofText?_bare {text bare : Text} (hBare : text.bare? = some bare)
    (hIndent : text.form.isInline → text.Indented) (levelWidth : Nat) :
    OutlineRow.ofText? levelWidth bare = OutlineRow.ofText? levelWidth text := by
  rw [bare?] at hBare
  split at hBare
  · cases hBare
  · obtain rfl := Option.some.inj hBare
    rfl
  · cases hBare
  · next before body hForm =>
    obtain rfl := Option.some.inj hBare
    have hData := form_stripEnd hForm
    have hTidy := tidy_stripEnd hForm (hIndent (by rw [hForm]; rfl))
    have hText := splitAtMarker_eq_some ((form_eq_inline_iff text before body).mp hForm).2
    -- the depth is read before any white space at the end, and what is said is
    -- read without it
    obtain ⟨tail, hTail⟩ := prefix_stripEnd isBlank before
    rw [OutlineRow.ofText?_of_data hData, OutlineRow.ofText?_of_inline hForm]
    congr 1
    apply OutlineRow.ofLine_congr
    · show depth levelWidth (stripEnd isBlank before) = depth levelWidth text
      rw [hText, ← hTail, List.append_assoc, hTail]
      exact (depth_append_of_not_allBlank ((form_eq_data_iff _).mp hData).1 levelWidth _).symm
    · show Entry.ofData (stripEnd isBlank before) = Entry.ofData before.trim
      rw [← trim_stripEnd, Entry.ofData_trim hTidy]

theorem ofText?_of_bare?_eq_none {text : Text} (hBare : text.bare? = none) (levelWidth : Nat) :
    OutlineRow.ofText? levelWidth text = none := by
  rw [OutlineRow.ofText?, Row.dataLine?_read]
  rw [bare?] at hBare
  split at hBare <;> simp_all

/-- A row with data is what is left of it and its trailer. -/
theorem bare?_append_trailer {text bare : Text} (hBare : text.bare? = some bare) :
    bare ++ text.trailer = text.rewritten := by
  rw [bare?] at hBare
  rw [trailer, rewritten]
  split at hBare <;> simp_all

/-- A row without data is left alone. -/
theorem rewritten_of_bare?_eq_none {text : Text} (hBare : text.bare? = none) :
    text.rewritten = text := by
  rw [bare?] at hBare
  rw [rewritten]
  split at hBare <;> simp_all

/-- With a single space before the marker of its comment, a row is left alone
too. -/
theorem rewritten_of_spaced {text : Text}
    (hSpaced : ∀ before body, text.form = .inline before body →
    before = stripEnd isBlank before ++ [' ']) : text.rewritten = text := by
  rw [rewritten]
  split
  · next before body hForm =>
    have hText := splitAtMarker_eq_some ((form_eq_inline_iff text before body).mp hForm).2
    calc stripEnd isBlank before ++ ' ' :: marker :: body
        = (stripEnd isBlank before ++ [' ']) ++ marker :: body := by simp
      _ = before ++ marker :: body := by rw [← hSpaced before body hForm]
      _ = text := hText.symm
  · rfl

end Text

-- ---------------------------------------------------------------------------
-- What is left of a document
-- ---------------------------------------------------------------------------

/-- What is left of a row with its path. -/
def bareItem? (item : Text × Option Path) : Option (Text × Option Path) :=
  item.1.bare?.map fun bare => (bare, item.2)

/-- Rows without data may be taken out of an outline. By induction on the rows:
the rows above are the same after each row, whether it is left or not. -/
theorem Outline.zip_pathsBelow_bare (levelWidth : Nat) {rows : List Text}
    (hIndent : ∀ text ∈ rows, text.form.isInline → text.Indented)
    (above : List OutlineRow) :
    (rows.filterMap Text.bare?).zip
        (pathsBelow above ((rows.filterMap Text.bare?).map (OutlineRow.ofText? levelWidth)))
      = (rows.zip (pathsBelow above (rows.map (OutlineRow.ofText? levelWidth)))).filterMap
          bareItem? := by
  induction rows generalizing above with
  | nil => rfl
  | cons text rest ih =>
    have hRest := ih fun other hOther => hIndent other (List.mem_cons_of_mem text hOther)
    cases hBare : text.bare? with
    | none =>
      have hNone := Text.ofText?_of_bare?_eq_none hBare levelWidth
      have hItem : ∀ p?, bareItem? (text, p?) = none := fun p? => by rw [bareItem?, hBare]; rfl
      rw [List.filterMap_cons_none hBare, hRest, List.map_cons, hNone, pathsBelow,
        List.zip_cons_cons, List.filterMap_cons_none (hItem none)]
    | some bare =>
      have hSame := Text.ofText?_bare hBare (hIndent text List.mem_cons_self) levelWidth
      have hItem : ∀ p?, bareItem? (text, p?) = some (bare, p?) := fun p? => by
        rw [bareItem?, hBare]
        rfl
      rw [List.filterMap_cons_some hBare, List.map_cons, List.map_cons, hSame, pathsBelow_cons,
        pathsBelow_cons, List.zip_cons_cons, List.zip_cons_cons, hRest,
        List.filterMap_cons_some (hItem _)]

namespace Document

variable {source target : Document}

/-- The rows that are left keep their paths. -/
theorem pathed_of_stripped (hWidth : target.levelWidth = source.levelWidth)
    (hIndent : ∀ text ∈ source.rows, text.form.isInline → text.Indented)
    (hRows : target.rows = source.rows.filterMap Text.bare?) :
    target.pathed = source.pathed.filterMap bareItem? := by
  rw [pathed, paths, outline, hWidth, hRows, pathed, paths, outline]
  exact Outline.zip_pathsBelow_bare source.levelWidth hIndent []

/-- Something is left of a row exactly if it has a path. -/
theorem bare?_eq_none_iff {item : Text × Option Path} (hItem : item ∈ source.pathed) :
    item.1.bare? = none ↔ item.2 = none := by
  have hSome : item.1.bare?.isSome = item.2.isSome := by
    rw [isSome_of_mem_pathed hItem, Row.hasData, Row.dataLine?_read, Text.bare?]
    cases item.1.form <;> rfl
  rw [← Option.not_isSome_iff_eq_none, hSome, Option.not_isSome_iff_eq_none]

/-- What is left of a document has the same paths. -/
theorem pathTable_of_stripped (hPathed : target.pathed = source.pathed.filterMap bareItem?) :
    target.pathTable.map (·.2) = source.pathTable.map (·.2) := by
  rw [map_snd_pathTable, map_snd_pathTable, hPathed, List.filterMap_filterMap]
  apply List.filterMap_congr
  intro item hItem
  rw [bareItem?]
  cases hBare : item.1.bare? with
  | none => exact ((bare?_eq_none_iff hItem).mp hBare).symm
  | some bare => rfl

-- ---------------------------------------------------------------------------
-- Documents without repeated paths
-- ---------------------------------------------------------------------------

theorem lineOf?_of_pathAt? {d : Document} (hDistinct : (d.pathTable.map (·.2)).Nodup) {n : Nat}
    {p : Path}
    (hPath : d.pathAt? n = some p) : d.lineOf? p = some n := by
  refine lineOf?_eq_some_iff.mpr ⟨hPath, fun k hk hOther => ?_⟩
  have hEntry := List.inj_on_of_nodup_map hDistinct (mem_pathTable_iff.mpr hOther)
    (mem_pathTable_iff.mpr hPath) rfl
  exact Nat.ne_of_lt hk (congrArg Prod.fst hEntry)

/-- Each row owns its path if no path occurs twice. -/
theorem ownPaths_of_distinct {d : Document} (hDistinct : (d.pathTable.map (·.2)).Nodup) :
    d.ownPaths = d.paths := by
  rw [ownPaths, List.mapIdx_eq_iff]
  intro n
  cases hPath : d.paths[n]? with
  | none => rfl
  | some p? =>
    cases p? with
    | none => rfl
    | some p =>
      have hLine := lineOf?_of_pathAt? hDistinct (pathAt?_eq_some_iff.mpr hPath)
      exact congrArg some (Option.filter_some_pos (by simpa using hLine)).symm

/-- A path that occurs once is found once. -/
theorem filter_of_distinct {items : List (Text × Option Path)}
    (hDistinct : (items.filterMap (·.2)).Nodup)
    {text : Text} {p : Path} (hItem : (text, some p) ∈ items) :
    items.filter (·.2 = some p) = [(text, some p)] := by
  induction items with
  | nil => cases hItem
  | cons item rest ih =>
    obtain ⟨own, q?⟩ := item
    cases q? with
    | none =>
      rw [List.filter_cons_of_neg (by simp)]
      exact ih hDistinct ((List.mem_cons.mp hItem).resolve_left (by simp))
    | some q =>
      obtain ⟨hNew, hDistinct⟩ := List.nodup_cons.mp hDistinct
      -- either this row is the one, and no later row has its path, or the one
      -- comes later
      rcases List.mem_cons.mp hItem with hEq | hRest
      · obtain ⟨rfl, rfl⟩ : text = own ∧ p = q := by simpa using hEq
        rw [List.filter_cons_of_pos (by simp), filter_path_eq_nil hNew]
      · have hNe : q ≠ p := by
          rintro rfl
          exact hNew (List.mem_filterMap.mpr ⟨(text, some q), hRest, rfl⟩)
        rw [List.filter_cons_of_neg (by simpa using hNe)]
        exact ih hDistinct hRest

/-- The trailers at a path are those of its only row. -/
theorem trailersAt_of_distinct {d : Document} (hDistinct : (d.pathTable.map (·.2)).Nodup)
    {text : Text} {p : Path}
    (hItem : (text, some p) ∈ d.pathed) : d.trailersAt p = text.trailer := by
  rw [map_snd_pathTable] at hDistinct
  rw [trailersAt, filter_of_distinct hDistinct hItem, List.flatMap_singleton]

-- ---------------------------------------------------------------------------
-- The round trip
-- ---------------------------------------------------------------------------

/-- Each row that is left gets its own comment back, and each block its own
place. -/
theorem mergedRows_of_stripped (hDistinct : (source.pathTable.map (·.2)).Nodup)
    (hPathed : target.pathed = source.pathed.filterMap bareItem?) :
    mergedRows source target = source.rows.map Text.rewritten := by
  have hZip : (target.rows.zip target.ownPaths).map
        (fun row => (row.1 ++ row.2.elim [] source.trailersAt, row.2))
      = source.pathed.filterMap fun item => item.2.map fun p => (item.1.rewritten, some p) := by
    have hOwn : target.ownPaths = target.paths :=
      ownPaths_of_distinct (by rw [pathTable_of_stripped hPathed]; exact hDistinct)
    rw [hOwn, ← pathed, hPathed, List.map_filterMap]
    apply List.filterMap_congr
    rintro ⟨text, p?⟩ hItem
    rw [bareItem?]
    cases p? with
    | none =>
      rw [(bare?_eq_none_iff hItem).mpr rfl]
      rfl
    | some p =>
      have hLeft : text.bare? ≠ none := mt (bare?_eq_none_iff hItem).mp (by simp)
      obtain ⟨bare, hBare⟩ := Option.ne_none_iff_exists'.mp hLeft
      rw [hBare, Option.map_some, Option.map_some, Option.elim_some,
        trailersAt_of_distinct hDistinct hItem, Text.bare?_append_trailer hBare]
      rfl
  have hSame : ∀ item ∈ source.pathed, item.2 = none → item.1.rewritten = item.1 := by
    intro item hItem hNone
    exact Text.rewritten_of_bare?_eq_none ((bare?_eq_none_iff hItem).mpr hNone)
  rw [map_snd_pathTable] at hDistinct
  have hWeave := weave_blocks Text.rewritten hDistinct hSame []
  rw [mergedRows_eq_weave, hZip]
  refine hWeave.trans ?_
  rw [List.nil_append, ← map_fst_pathed, List.map_map]
  rfl

/-- A row that carries an inline comment is what is left of the row that the
comment was taken from. -/
theorem bears_of_stripped (hDistinct : (source.pathTable.map (·.2)).Nodup)
    (hIndent : ∀ text ∈ source.rows, text.form.isInline → text.Indented)
    (hPathed : target.pathed = source.pathed.filterMap bareItem?) :
    Progress.Bears { document := target } source.comments.inlineEntries := by
  intro entry hEntry n hn bare hBare
  obtain ⟨hMem, hInline⟩ := List.mem_filter.mp hEntry
  obtain ⟨p, hAnchor, hLine⟩ := Option.bind_eq_some_iff.mp hn
  rw [(anchorPath?_of_inline hEntry).1] at hAnchor
  obtain ⟨k, comment, hRow, rfl⟩ := mem_entries_comments_iff.mp hMem
  obtain ⟨hRead, hOwn⟩ := readAt_of_getElem?_readRows hRow
  rw [pathAt?_of_getElem?_readRows hRow] at hAnchor
  obtain ⟨before, hForm⟩ := hRead.form_of_inline hInline
  have hSource : (comment.line.text, some p) ∈ source.pathed := by
    have hItem : (Row.comment comment).pathed = (comment.line.text, some p) := by
      rw [Row.pathed, hAnchor]
      rfl
    exact hItem ▸ List.mem_of_getElem? hOwn
  have hTarget : (bare, some p) ∈ target.pathed := by
    refine List.mem_of_getElem? (List.getElem?_zip_eq_some.mpr ⟨hBare, ?_⟩)
    exact pathAt?_eq_some_iff.mp (lineOf?_eq_some_iff.mp hLine).1
  rw [hPathed] at hTarget
  obtain ⟨⟨text, p?⟩, hItem, hLeft⟩ := List.mem_filterMap.mp hTarget
  obtain ⟨other, hOther, hEq⟩ := Option.map_eq_some_iff.mp hLeft
  obtain ⟨rfl, rfl⟩ : other = bare ∧ p? = some p := by simpa using hEq
  -- no other row has this path, so nothing else is left at it
  rw [map_snd_pathTable] at hDistinct
  have hSame := (filter_of_distinct hDistinct hItem).symm.trans
    (filter_of_distinct hDistinct hSource)
  obtain rfl : text = comment.line.text := by simpa using hSame
  have hOther : (comment.line.text).bare? = some other := hOther
  rw [Text.bare?, hForm] at hOther
  obtain rfl := Option.some.inj hOther
  have hRowIndent := hIndent comment.line.text (List.of_mem_zip hSource).1 (by rw [hForm]; rfl)
  exact .data (Text.form_stripEnd hForm) (Text.tidy_stripEnd hForm hRowIndent)

/-- No comment rests on a path that is lost. -/
theorem not_lacks_of_stripped (hPathed : target.pathed = source.pathed.filterMap bareItem?)
    (n : Nat) :
    ¬ target.Lacks (source.restsOn? n) := by
  rintro ⟨p, hRests, hLine⟩
  obtain ⟨p?, hMem, rfl⟩ := List.exists_of_findSome?_eq_some hRests
  obtain ⟨k, hk⟩ := List.mem_iff_getElem?.mp (List.mem_of_mem_drop hMem)
  have hSource : p ∈ source.pathTable.map (·.2) :=
    List.mem_map_of_mem (mem_pathTable_iff.mpr (pathAt?_eq_some_iff.mpr hk))
  rw [← pathTable_of_stripped hPathed] at hSource
  obtain ⟨⟨m, q⟩, hTarget, rfl⟩ := List.mem_map.mp hSource
  have hPath := pathAt?_eq_some_iff.mp (mem_pathTable_iff.mp hTarget)
  exact lineOf?_eq_none_iff.mp hLine (List.mem_of_getElem? hPath)

end Document

/-- **The round trip.** A document in which no path occurs twice, and whose rows
with inline comments are indented with spaces and tabs, gets all its comments
back when they are put into what is left of it without them. The rows are those
that it had, up to the white space before the markers of inline comments. -/
theorem annotate_stripped {source target : Document}
    (hWidth : target.levelWidth = source.levelWidth)
    (hDistinct : (source.pathTable.map (·.2)).Nodup)
    (hIndent : ∀ text ∈ source.rows, text.form.isInline → text.Indented)
    (hRows : target.rows = source.rows.filterMap Text.bare?) :
    target.annotate source.comments =
      { document := { target with rows := source.rows.map Text.rewritten }
        placed := source.comments.size
        orphans := [] } ∧
    ((∀ text ∈ source.rows, ∀ before body, text.form = .inline before body →
        before = Text.stripEnd isBlank before ++ [' ']) →
      source.rows.map Text.rewritten = source.rows) := by
  constructor
  · have hPathed := Document.pathed_of_stripped hWidth hIndent hRows
    have hBears := Document.bears_of_stripped hDistinct hIndent hPathed
    have hAll : ∀ entry ∈ source.comments.entries,
        entry.1 ∉ (Progress.complete target source.comments).orphans := by
      intro entry hEntry hOrphan
      exact Document.not_lacks_of_stripped hPathed entry.1
        ((Document.mem_orphans_complete_iff hBears hEntry).mp hOrphan)
    rw [(Decisions.made target source.comments).annotate_of_forall hAll,
      Document.document_complete hBears, Document.mergedRows_of_stripped hDistinct hPathed]
  · intro hSpaced
    have hSame : ∀ text ∈ source.rows, text.rewritten = id text := fun text hText =>
      Text.rewritten_of_spaced (hSpaced text hText)
    rw [List.map_congr_left hSame, List.map_id]

/-- Blank rows that repeat, a block at the end, and a marker with two spaces
before it. -/
theorem annotate_stripped_blocks :
    (Document.ofRows 2 ["a:".toList, "  b: 1".toList]).annotate
        (Document.ofRows 2 ["# top".toList, "".toList, "a:".toList, "".toList, "  b: 1  # one".toList,
          "".toList, "# end".toList]).comments =
      { document := Document.ofRows 2 ["# top".toList, "".toList, "a:".toList, "".toList,
          "  b: 1 # one".toList, "".toList, "# end".toList]
        placed := 6
        orphans := [] } := by
  obtain ⟨hAnnotated, -⟩ := @annotate_stripped
    (Document.ofRows 2 ["# top".toList, "".toList, "a:".toList, "".toList, "  b: 1  # one".toList,
      "".toList, "# end".toList])
    (Document.ofRows 2 ["a:".toList, "  b: 1".toList]) rfl (by decide) (by decide) (by decide)
  exact hAnnotated.trans (by decide)

end Marginalia
