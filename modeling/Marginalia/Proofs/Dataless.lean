import Marginalia.Proofs.Addressing

/-!
# Rows without data

Full and blank comments take no part in addressing. The search for a parent and
the count of the items both pass them over, so it does not matter where such a
row stands, how far it is indented and inside which part of the outline: taken
out, it leaves all other lines their paths, under numbers that close the gap.

Taking rows out is the one law that is proved by recursion on the rows. A row
that is put in can be taken out again, so the law for putting one in follows.

## Results

* `Outline.pathsBelow_keepAt`     — the paths of the rows that are left are the paths that are left.
* `Document.pathTable_keepRows`   — taking rows without data out renumbers the table of paths.
* `Document.pathTable_insertAt`   — putting one in renumbers it the other way.
* `index_passes_over_dataless`    — rows without data are invisible to the index.
-/

namespace Marginalia

/-- The row is a full or a blank comment. -/
def Text.Dataless (text : Text) : Prop :=
  ∃ comment, Row.read 0 text = .comment comment ∧ comment.form ≠ .inline

theorem OutlineRow.ofText?_of_dataless {text : Text} (hText : text.Dataless) (levelWidth : Nat) :
    ofText? levelWidth text = none := by
  obtain ⟨comment, hRow, hForm⟩ := hText
  have hInline : ¬ comment.isInline = true := mt comment.isInline_iff.mp hForm
  rw [ofText?, hRow, Row.dataLine?, if_neg hInline]
  rfl

-- ---------------------------------------------------------------------------
-- Keeping some members of a list
-- ---------------------------------------------------------------------------

section KeepAt

variable {α : Type}

/-- The members of a list at the places that are kept, the first place having the
number `k`. -/
def keepAt (keep : Nat → Bool) (k : Nat) (l : List α) : List α :=
  ((l.zipIdx k).filter fun item => keep item.2).map (·.1)

theorem keepAt_cons_of_kept {keep : Nat → Bool} {k : Nat} (hKeep : keep k = true) (x : α) (rest : List α) :
    keepAt keep k (x :: rest) = x :: keepAt keep (k + 1) rest := by
  simp [keepAt, hKeep]

theorem keepAt_cons_of_dropped {keep : Nat → Bool} {k : Nat} (hKeep : keep k = false) (x : α)
    (rest : List α) : keepAt keep k (x :: rest) = keepAt keep (k + 1) rest := by
  simp [keepAt, hKeep]

theorem keepAt_append (keep : Nat → Bool) (k : Nat) (upper lower : List α) :
    keepAt keep k (upper ++ lower) = keepAt keep k upper ++ keepAt keep (k + upper.length) lower := by
  simp [keepAt, List.zipIdx_append]

theorem keepAt_of_forall {keep : Nat → Bool} {k : Nat} {l : List α}
    (hKeep : ∀ n, k ≤ n → n < k + l.length → keep n = true) : keepAt keep k l = l := by
  have hAll : (l.zipIdx k).filter (fun item => keep item.2) = l.zipIdx k := by
    rw [List.filter_eq_self]
    rintro ⟨x, n⟩ hMem
    obtain ⟨hLe, hLt, -⟩ := List.mem_zipIdx hMem
    exact hKeep n hLe hLt
  rw [keepAt, hAll]
  exact List.zipIdx_map_fst k l

theorem keepAt_map {β : Type} (f : α → β) (keep : Nat → Bool) (k : Nat) (l : List α) :
    keepAt keep k (l.map f) = (keepAt keep k l).map f := by
  induction l generalizing k with
  | nil => rfl
  | cons x rest ih =>
    cases hKeep : keep k with
    | true => rw [List.map_cons, keepAt_cons_of_kept hKeep, keepAt_cons_of_kept hKeep, ih, List.map_cons]
    | false => rw [List.map_cons, keepAt_cons_of_dropped hKeep, keepAt_cons_of_dropped hKeep, ih]

end KeepAt

/-- The number of places before `n` that are kept: the new number of `n`, if it is
kept itself. -/
def keptBefore (keep : Nat → Bool) (n : Nat) : Nat :=
  (List.range n).countP keep

theorem keptBefore_succ (keep : Nat → Bool) (n : Nat) :
    keptBefore keep (n + 1) = keptBefore keep n + if keep n then 1 else 0 := by
  rw [keptBefore, List.range_succ, List.countP_append, List.countP_singleton, keptBefore]

-- ---------------------------------------------------------------------------
-- Taking rows out
-- ---------------------------------------------------------------------------

/-- **The paths of the rows that are left are the paths that are left**, if none
of the rows taken out has data. -/
theorem Outline.pathsBelow_keepAt {keep : Nat → Bool} (above : List OutlineRow)
    {rows : List (Option OutlineRow)} {k : Nat}
    (hDropped : ∀ n, keep (k + n) = false → rows[n]?.join = none) :
    pathsBelow above (keepAt keep k rows) = keepAt keep k (pathsBelow above rows) := by
  induction rows generalizing above k with
  | nil => rfl
  | cons row? rest ih =>
    have hRest : ∀ n, keep (k + 1 + n) = false → rest[n]?.join = none := by
      intro n hn
      exact hDropped (n + 1) (by rwa [Nat.add_right_comm, Nat.add_assoc] at hn)
    rw [pathsBelow_cons]
    cases hKeep : keep k with
    | true =>
      rw [keepAt_cons_of_kept hKeep, keepAt_cons_of_kept hKeep, pathsBelow_cons, ih _ hRest]
    | false =>
      obtain rfl : row? = none := hDropped 0 hKeep
      rw [keepAt_cons_of_dropped hKeep, keepAt_cons_of_dropped hKeep]
      exact ih above hRest

/-- The table of the paths that are left has their new numbers. -/
theorem filterMap_zipIdx_keepAt {keep : Nat → Bool} {paths : List (Option Path)} {k : Nat}
    (hDropped : ∀ n, keep (k + n) = false → paths[n]?.join = none) :
    ((keepAt keep k paths).zipIdx (keptBefore keep k)).filterMap
        (fun entry => entry.1.map fun p => (entry.2, p))
      = ((paths.zipIdx k).filterMap fun entry => entry.1.map fun p => (entry.2, p)).map
          fun entry => (keptBefore keep entry.1, entry.2) := by
  induction paths generalizing k with
  | nil => rfl
  | cons p? rest ih =>
    have hRest : ∀ n, keep (k + 1 + n) = false → rest[n]?.join = none := by
      intro n hn
      exact hDropped (n + 1) (by rwa [Nat.add_right_comm, Nat.add_assoc] at hn)
    have hTail := ih hRest
    rw [keptBefore_succ] at hTail
    cases hKeep : keep k with
    | true =>
      rw [hKeep, if_pos rfl] at hTail
      rw [keepAt_cons_of_kept hKeep, List.zipIdx_cons, List.zipIdx_cons]
      cases p? with
      | none => simpa using hTail
      | some p => simpa using hTail
    | false =>
      obtain rfl : p? = none := hDropped 0 hKeep
      rw [hKeep] at hTail
      rw [keepAt_cons_of_dropped hKeep, List.zipIdx_cons]
      simpa using hTail

namespace Document

/-- The document with the rows under these numbers alone. -/
def keepRows (d : Document) (keep : Nat → Bool) : Document :=
  { d with rows := keepAt keep 0 d.rows }

variable {d : Document} {keep : Nat → Bool} {text : Text}

/-- **Taking rows without data out** leaves all other lines their paths and
renumbers the lines. -/
theorem pathTable_keepRows
    (hDropped : ∀ n text, d.textAt? n = some text → keep n = false → text.Dataless) :
    (d.keepRows keep).pathTable
      = d.pathTable.map fun entry => (keptBefore keep entry.1, entry.2) := by
  have hRows : ∀ n, keep (0 + n) = false → d.outline[n]?.join = none := by
    intro n hKeep
    rw [Nat.zero_add] at hKeep
    rw [getElem?_outline]
    cases hText : d.textAt? n with
    | none => rfl
    | some text => exact OutlineRow.ofText?_of_dataless (hDropped n text hText hKeep) d.levelWidth
  have hPaths : (d.keepRows keep).paths = keepAt keep 0 d.paths := by
    rw [paths, outline]
    show Outline.paths ((keepAt keep 0 d.rows).map _) = _
    rw [← keepAt_map]
    exact Outline.pathsBelow_keepAt [] hRows
  have hNone : ∀ n, keep (0 + n) = false → d.paths[n]?.join = none := by
    intro n hKeep
    have hRow := hRows n hKeep
    rw [paths, Outline.getElem?_paths]
    cases hOutline : d.outline[n]? with
    | none => rfl
    | some row? =>
      rw [hOutline] at hRow
      rw [show row? = none from hRow]
      rfl
  rw [pathTable, hPaths]
  exact filterMap_zipIdx_keepAt hNone

-- ---------------------------------------------------------------------------
-- Putting a row in
-- ---------------------------------------------------------------------------

/-- A row that was put in can be taken out again. -/
theorem keepRows_insertAt (d : Document) (number : Nat) (text : Text) :
    (d.insertAt number text).keepRows (· != min number d.length) = d := by
  have hLength : (d.rows.take (min number d.length)).length = min number d.length := by
    rw [List.length_take, length]
    omega
  have hRows : d.rows = d.rows.take (min number d.length) ++ d.rows.drop (min number d.length) :=
    (List.take_append_drop _ _).symm
  have hInsert := insertAt_of_rows_eq hRows text
  rw [hLength] at hInsert
  have hSame : d.insertAt number text = d.insertAt (min number d.length) text := by
    rw [insertAt, insertAt, length, Nat.min_assoc, Nat.min_self]
  have hUpper : keepAt (· != min number d.length) 0 (d.rows.take (min number d.length))
      = d.rows.take (min number d.length) := by
    apply keepAt_of_forall
    intro n _ hn
    rw [hLength, Nat.zero_add] at hn
    exact bne_iff_ne.mpr (Nat.ne_of_lt hn)
  have hLower : keepAt (· != min number d.length) (min number d.length + 1)
      (d.rows.drop (min number d.length)) = d.rows.drop (min number d.length) := by
    apply keepAt_of_forall
    intro n hn _
    exact bne_iff_ne.mpr (Nat.ne_of_gt hn)
  rw [hSame, hInsert, keepRows]
  show { d with rows := keepAt _ 0 (_ ++ text :: _) } = d
  rw [keepAt_append, hUpper, hLength, Nat.zero_add, keepAt_cons_of_dropped (by simp), hLower, ← hRows]

theorem keptBefore_ne (place n : Nat) :
    keptBefore (· != place) n = if n ≤ place then n else n - 1 := by
  induction n with
  | zero => simp [keptBefore]
  | succ n ih =>
    rw [keptBefore_succ, ih]
    by_cases hn : n = place
    · simp [hn]
    · rw [if_pos (bne_iff_ne.mpr hn)]
      split <;> split <;> omega

/-- A row without data has no path where it is put in. -/
theorem pathAt?_insertAt_self (hText : text.Dataless) (number : Nat) :
    (d.insertAt number text).pathAt? (min number d.length) = none := by
  have hRow := (d.insertAt number text).join_getElem?_outline (min number d.length)
  rw [getElem?_outline, textAt?_insertAt_self, Option.map_some, Option.join_some,
    OutlineRow.ofText?_of_dataless hText] at hRow
  rw [pathAt?_eq, Option.map_eq_none_iff.mp hRow.symm]
  rfl

/-- **Putting a row without data in** leaves all other lines their paths and
shifts the lines below it. -/
theorem pathTable_insertAt (hText : text.Dataless) (number : Nat) :
    (d.insertAt number text).pathTable
      = d.pathTable.map fun entry =>
          (if min number d.length ≤ entry.1 then entry.1 + 1 else entry.1, entry.2) := by
  set place := min number d.length with hPlace
  have hDropped : ∀ n other, (d.insertAt number text).textAt? n = some other →
      (n != place) = false → other.Dataless := by
    intro n other hOther hn
    obtain rfl : n = place := by simpa using hn
    rw [hPlace, textAt?_insertAt_self] at hOther
    exact Option.some.inj hOther ▸ hText
  have hOld := pathTable_keepRows hDropped
  rw [keepRows_insertAt] at hOld
  -- shifting undoes the renumbering of every line but the new one, which has no path
  have hUndo : ∀ entry ∈ (d.insertAt number text).pathTable,
      (if place ≤ keptBefore (· != place) entry.1 then keptBefore (· != place) entry.1 + 1
        else keptBefore (· != place) entry.1, entry.2) = entry := by
    rintro ⟨n, p⟩ hEntry
    have hn : n ≠ place := by
      rintro rfl
      rw [mem_pathTable_iff, pathAt?_insertAt_self hText] at hEntry
      cases hEntry
    rw [Prod.mk.injEq, keptBefore_ne]
    refine ⟨?_, rfl⟩
    split <;> split <;> omega
  rw [hOld, List.map_map]
  exact ((List.map_congr_left hUndo).trans (List.map_id _)).symm

-- ---------------------------------------------------------------------------
-- The rows with data alone
-- ---------------------------------------------------------------------------

/-- The rows with data, in their order. -/
def dataRows (d : Document) : List Text :=
  d.rows.filter fun text => (Row.read 0 text).hasData

theorem filterMap_ofText?_dataRows (d : Document) (levelWidth : Nat) :
    d.dataRows.filterMap (OutlineRow.ofText? levelWidth)
      = d.rows.filterMap (OutlineRow.ofText? levelWidth) := by
  rw [dataRows, List.filterMap_filter]
  apply List.filterMap_congr
  intro text _
  split
  · rfl
  · next hData =>
    rw [← OutlineRow.isSome_ofText? levelWidth 0] at hData
    exact (Option.not_isSome_iff_eq_none.mp hData).symm

/-- The paths in their order follow from the rows with data in theirs. -/
theorem map_snd_pathTable_congr {other : Document} (hWidth : other.levelWidth = d.levelWidth)
    (hRows : other.dataRows = d.dataRows) :
    other.pathTable.map (·.2) = d.pathTable.map (·.2) := by
  rw [map_snd_pathTable, map_snd_pathTable, filterMap_snd_pathed, filterMap_snd_pathed]
  apply filterMap_paths_congr
  rw [filterMap_outline, filterMap_outline, ← filterMap_ofText?_dataRows, hRows, hWidth,
    filterMap_ofText?_dataRows]

end Document

/-- **Rows without data are invisible to the index.** Putting one in, at any place
of any document, shifts the lines below it and leaves every path as it is; the new
line has none. The paths in the order of their lines follow from the rows with
data alone, and taking any rows without data out changes no path of another line. -/
theorem index_passes_over_dataless (d : Document) :
    (∀ (number : Nat) (text : Text), text.Dataless →
      (d.indexed.insertAt number text).index
          = d.indexed.index.map (fun entry =>
              (if min number d.length ≤ entry.1 then entry.1 + 1 else entry.1, entry.2)) ∧
        (d.indexed.insertAt number text).pathAt? (min number d.length) = none) ∧
    (∀ other : Document, other.levelWidth = d.levelWidth → other.dataRows = d.dataRows →
      other.indexed.index.map (·.2) = d.indexed.index.map (·.2)) ∧
    (∀ keep : Nat → Bool, (∀ n text, d.textAt? n = some text → keep n = false → text.Dataless) →
      (d.keepRows keep).indexed.index
        = d.indexed.index.map fun entry => (keptBefore keep entry.1, entry.2)) := by
  refine ⟨fun number text hText => ⟨Document.pathTable_insertAt hText number, ?_⟩,
    fun other hWidth hRows => Document.map_snd_pathTable_congr hWidth hRows,
    fun keep hDropped => Document.pathTable_keepRows hDropped⟩
  show (d.insertAt number text).indexed.pathAt? _ = none
  rw [Document.pathAt?_indexed]
  exact Document.pathAt?_insertAt_self hText number

/-- A comment in the middle of a sequence, further out than its items, put in and
taken out again together with a blank row. -/
theorem index_passes_over_dataless_sequence :
    ∃ d : Document, d.rows = ["a:".toList, "  - x".toList, "".toList, "  - y # z".toList] ∧
      Text.Dataless "# c".toList ∧
      (d.indexed.insertAt 3 "# c".toList).index
        = [(0, ⟨[.key "a".toList]⟩), (1, ⟨[.key "a".toList, .item 0]⟩),
            (4, ⟨[.key "a".toList, .item 1]⟩)] ∧
      (d.keepRows (· != 2)).indexed.index
        = [(0, ⟨[.key "a".toList]⟩), (1, ⟨[.key "a".toList, .item 0]⟩),
            (2, ⟨[.key "a".toList, .item 1]⟩)] := by
  have hComment : Text.Dataless "# c".toList := ⟨_, rfl, by decide⟩
  have hDropped : ∀ n text,
      (Document.ofRows 2 ["a:".toList, "  - x".toList, "".toList, "  - y # z".toList]).textAt? n
        = some text → (n != 2) = false → text.Dataless := by
    intro n text hText hn
    obtain rfl : n = 2 := by simpa using hn
    rw [← Option.some.inj hText]
    exact ⟨_, rfl, by decide⟩
  have hLaw := index_passes_over_dataless
    (Document.ofRows 2 ["a:".toList, "  - x".toList, "".toList, "  - y # z".toList])
  refine ⟨Document.ofRows 2 _, rfl, hComment, ?_, ?_⟩
  · rw [(hLaw.1 3 _ hComment).1]
    decide
  · rw [hLaw.2.2 _ hDropped]
    decide

end Marginalia
