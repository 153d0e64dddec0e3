import Marginalia.Proofs.Addressing

/-!
# Where a new row with data is felt

A row with data that is put into a document can become the parent of rows below it,
the parent of their parents, or an item that they count. The rows above it see
nothing of it. Below it, the search for a parent and the count of the items both go
upwards from a row, and either turns to a shallower depth at each row that it stops
at. Once that depth is too small for the new row to matter, the new row is out of
sight, and so it is for all rows further down.

So the first row that is shallower than the new one ends the part of the document
that is concerned. If the new row is no item, one of the same depth does as well.

## Results

* `OutlineRow.parentPath_of_hidden`, `OutlineRow.position_of_hidden` — a hidden row is neither found nor counted.
* `Document.pathAt?_insertAt_of_lt`   — the rows above a new row keep their paths.
* `Document.pathAt?_insertAt_succ`    — so do the rows from which it is hidden.
* `new_data_changes_paths_locally`    — which rows keep their paths when a row with data is put in.
-/

namespace Marginalia

namespace OutlineRow

-- ---------------------------------------------------------------------------
-- Out of sight
-- ---------------------------------------------------------------------------

/-- The row is neither a parent of rows at this depth nor an item that they
count. -/
def UnseenFrom (row : OutlineRow) (depth : Nat) : Prop :=
  if row.isItem then depth < row.depth else depth ≤ row.depth

instance (row : OutlineRow) (depth : Nat) : Decidable (row.UnseenFrom depth) :=
  inferInstanceAs (Decidable (if row.isItem then depth < row.depth else depth ≤ row.depth))

/-- The row is out of sight for a search that starts at this depth and passes the
rows of `near` first. -/
def Hidden (row : OutlineRow) (near : List OutlineRow) (depth : Nat) : Prop :=
  row.UnseenFrom depth ∨ ∃ bound ∈ near, row.UnseenFrom bound.depth

variable {row bound : OutlineRow} {near far : List OutlineRow} {depth : Nat}

theorem UnseenFrom.le (hUnseen : row.UnseenFrom depth) : depth ≤ row.depth := by
  unfold UnseenFrom at hUnseen
  split at hUnseen <;> omega

theorem UnseenFrom.not_counted (hUnseen : row.UnseenFrom depth) :
    ¬ (row.isItem ∧ row.depth = depth) := by
  rintro ⟨hItem, hDepth⟩
  rw [UnseenFrom, if_pos hItem] at hUnseen
  omega

/-- What is out of sight at a depth is so at every smaller one. -/
theorem UnseenFrom.of_le {less : Nat} (hUnseen : row.UnseenFrom depth) (hLe : less ≤ depth) :
    row.UnseenFrom less := by
  unfold UnseenFrom at hUnseen ⊢
  by_cases hItem : row.isItem
  · rw [if_pos hItem] at hUnseen ⊢
    exact Nat.lt_of_le_of_lt hLe hUnseen
  · rw [if_neg hItem] at hUnseen ⊢
    exact Nat.le_trans hLe hUnseen

/-- A row stays hidden when the search passes one more row, whether the search goes
on with the depth of that row or with its own. -/
theorem Hidden.pass (hHidden : row.Hidden (bound :: near) depth) :
    row.Hidden near (min depth bound.depth) := by
  rcases hHidden with hUnseen | ⟨other, hMem, hUnseen⟩
  · exact .inl (hUnseen.of_le (Nat.min_le_left _ _))
  · rcases List.mem_cons.mp hMem with rfl | hMem
    · exact .inl (hUnseen.of_le (Nat.min_le_right _ _))
    · exact .inr ⟨other, hMem, hUnseen⟩

/-- With nothing to pass, a row is hidden by the depth alone. -/
theorem Hidden.unseenFrom (hHidden : row.Hidden [] depth) : row.UnseenFrom depth :=
  hHidden.resolve_right (by simp)

/-- **A hidden row is not counted.** -/
theorem position_of_hidden (hHidden : row.Hidden near depth) (far : List OutlineRow) :
    position depth (near ++ row :: far) = position depth (near ++ far) := by
  induction near with
  | nil =>
    have hUnseen := hHidden.unseenFrom
    rw [List.nil_append, List.nil_append, position_cons, if_pos hUnseen.le, if_neg hUnseen.not_counted,
      Nat.add_zero]
  | cons bound near ih =>
    rw [List.cons_append, List.cons_append, position_cons, position_cons]
    by_cases hLe : depth ≤ bound.depth
    · have hPass := hHidden.pass
      rw [Nat.min_eq_left hLe] at hPass
      rw [if_pos hLe, if_pos hLe, ih hPass]
    · rw [if_neg hLe, if_neg hLe]

theorem step_of_hidden (hHidden : row.Hidden near bound.depth) (far : List OutlineRow) :
    bound.step (near ++ row :: far) = bound.step (near ++ far) := by
  rw [step, step, position_of_hidden hHidden]

/-- **A hidden row is not found.** By induction on the rows that the search passes:
it stops at a shallower row, and goes on from there at that row's depth. -/
theorem parentPath_of_hidden (hHidden : row.Hidden near depth) (far : List OutlineRow) :
    parentPath depth (near ++ row :: far) = parentPath depth (near ++ far) := by
  induction near generalizing depth with
  | nil => exact parentPath_cons_of_le hHidden.unseenFrom.le far
  | cons bound near ih =>
    have hPass := hHidden.pass
    rw [List.cons_append, List.cons_append]
    by_cases hLt : bound.depth < depth
    · rw [Nat.min_eq_right (Nat.le_of_lt hLt)] at hPass
      rw [parentPath_cons_of_lt hLt, parentPath_cons_of_lt hLt, path, path, ih hPass,
        step_of_hidden hPass]
    · rw [Nat.min_eq_left (Nat.le_of_not_lt hLt)] at hPass
      rw [parentPath_cons_of_le (Nat.le_of_not_lt hLt), parentPath_cons_of_le (Nat.le_of_not_lt hLt),
        ih hPass]

theorem path_of_hidden {other : OutlineRow} (hHidden : row.Hidden near other.depth)
    (far : List OutlineRow) : other.path (near ++ row :: far) = other.path (near ++ far) := by
  rw [path, path, parentPath_of_hidden hHidden, step_of_hidden hHidden]

end OutlineRow

namespace Document

variable {d : Document} {place k e : Nat} {text : Text} {row : OutlineRow}

-- ---------------------------------------------------------------------------
-- The rows above, with the new row among them
-- ---------------------------------------------------------------------------

/-- The rows with data from row `place` to the one before row `k`, nearest to row
`k` first. -/
def rowsBetween (d : Document) (place k : Nat) : List OutlineRow :=
  (((d.outline.drop place).take (k - place)).filterMap id).reverse

/-- The path of a row by its part in the outline. -/
theorem pathAt?_eq_outline (d : Document) (n : Nat) :
    d.pathAt? n = d.outline[n]?.join.map fun row => row.path (d.rowsAbove n) := by
  rw [pathAt?, paths, Outline.getElem?_paths, rowsAbove]
  cases d.outline[n]? with
  | none => rfl
  | some row? => rw [Option.map_some, Option.join_some, Option.join_some]

theorem outline_insertAt (hPlace : place ≤ d.length) (text : Text) :
    (d.insertAt place text).outline
      = d.outline.take place ++ OutlineRow.ofText? d.levelWidth text :: d.outline.drop place := by
  have hRows : d.rows = d.rows.take place ++ d.rows.drop place := (List.take_append_drop _ _).symm
  have hLength : (d.rows.take place).length = place := List.length_take_of_le hPlace
  have hInsert := insertAt_of_rows_eq hRows text
  rw [hLength] at hInsert
  rw [hInsert, outline, outline, List.map_append, List.map_cons, List.map_take, List.map_drop]

theorem length_take_outline (hPlace : place ≤ d.length) : (d.outline.take place).length = place :=
  List.length_take_of_le (by rwa [outline, List.length_map])

theorem rowsAbove_insertAt_of_le (hPlace : place ≤ d.length) (hk : k ≤ place) (text : Text) :
    (d.insertAt place text).rowsAbove k = d.rowsAbove k := by
  have hTake : k ≤ (d.outline.take place).length := by rwa [length_take_outline hPlace]
  rw [rowsAbove, rowsAbove, Outline.rowsAbove, Outline.rowsAbove, outline_insertAt hPlace,
    List.take_append_of_le_length hTake, List.take_take, Nat.min_eq_left hk]

/-- The rows above a row further down, without the new row. -/
theorem rowsAbove_eq_append (d : Document) (hk : place ≤ k) :
    d.rowsAbove k = d.rowsBetween place k ++ d.rowsAbove place := by
  have hTake : d.outline.take k
      = d.outline.take place ++ (d.outline.drop place).take (k - place) := by
    rw [← List.take_add, Nat.add_sub_cancel' hk]
  rw [rowsAbove, Outline.rowsAbove, hTake, List.filterMap_append, List.reverse_append, rowsBetween,
    rowsAbove, Outline.rowsAbove]

/-- The rows above a row further down, with the new row between them. -/
theorem rowsAbove_insertAt_succ (hPlace : place ≤ d.length) (hk : place ≤ k)
    (hRow : OutlineRow.ofText? d.levelWidth text = some row) :
    (d.insertAt place text).rowsAbove (k + 1)
      = d.rowsBetween place k ++ row :: d.rowsAbove place := by
  have hSplit : k + 1 = (d.outline.take place).length + ((k - place) + 1) := by
    rw [length_take_outline hPlace]
    omega
  rw [rowsAbove, Outline.rowsAbove, outline_insertAt hPlace, hSplit, List.take_length_add_append, hRow,
    List.take_succ_cons, List.filterMap_append, List.filterMap_cons_some (show id (some row) = some row from rfl),
    List.reverse_append, List.reverse_cons, List.append_assoc, List.singleton_append, rowsBetween, rowsAbove,
    Outline.rowsAbove]

/-- A row with data is one of the rows between. -/
theorem exists_mem_rowsBetween {own : Nat} (hDepth : d.depthAt? e = some own) (he : place ≤ e)
    (hk : e < k) : ∃ bound ∈ d.rowsBetween place k, bound.depth = own := by
  obtain ⟨line, hLine, rfl⟩ := Option.map_eq_some_iff.mp hDepth
  have hRow : d.outline[e]? = some (some (.ofLine d.levelWidth line)) := by
    rw [← Option.join_eq_some_iff, join_getElem?_outline, hLine, Option.map_some]
  refine ⟨.ofLine d.levelWidth line, ?_, rfl⟩
  rw [rowsBetween, List.mem_reverse, List.mem_filterMap]
  refine ⟨some _, List.mem_iff_getElem?.mpr ⟨e - place, ?_⟩, rfl⟩
  rw [List.getElem?_take_of_lt (by omega), List.getElem?_drop, Nat.add_sub_cancel' he, hRow]

-- ---------------------------------------------------------------------------
-- Paths with the new row
-- ---------------------------------------------------------------------------

/-- **The rows above a new row keep their paths.** -/
theorem pathAt?_insertAt_of_lt (hPlace : place ≤ d.length) (hk : k < place) (text : Text) :
    (d.insertAt place text).pathAt? k = d.pathAt? k := by
  have hTake : k < (d.outline.take place).length := by rwa [length_take_outline hPlace]
  rw [pathAt?_eq_outline, pathAt?_eq_outline, rowsAbove_insertAt_of_le hPlace (Nat.le_of_lt hk),
    outline_insertAt hPlace, List.getElem?_append_left hTake, List.getElem?_take_of_lt hk]

/-- **The rows from which a new row is hidden keep their paths**, one line further
down. -/
theorem pathAt?_insertAt_succ (hPlace : place ≤ d.length) (hk : place ≤ k)
    (hRow : OutlineRow.ofText? d.levelWidth text = some row)
    (hHidden : ∀ depth ∈ d.depthAt? k, row.Hidden (d.rowsBetween place k) depth) :
    (d.insertAt place text).pathAt? (k + 1) = d.pathAt? k := by
  have hSame : (d.insertAt place text).outline[k + 1]? = d.outline[k]? := by
    have hLe : (d.outline.take place).length ≤ k + 1 := by
      rw [length_take_outline hPlace]
      omega
    rw [outline_insertAt hPlace, List.getElem?_append_right hLe, length_take_outline hPlace,
      Nat.sub_add_comm hk, List.getElem?_cons_succ, List.getElem?_drop, Nat.add_sub_cancel' hk]
  rw [pathAt?_eq_outline, pathAt?_eq_outline, hSame, join_getElem?_outline]
  cases hLine : d.dataLineAt? k with
  | none => rfl
  | some line =>
    have hOwn := hHidden _ (depthAt?_of_some hLine)
    rw [Option.map_some, Option.map_some, Option.map_some, rowsAbove_insertAt_succ hPlace hk hRow,
      rowsAbove_eq_append d hk, OutlineRow.path_of_hidden hOwn]

/-- From a row on that is too shallow to see the new one, the new one is hidden. -/
theorem hidden_of_le {own : Nat} (hDepth : d.depthAt? e = some own) (he : place ≤ e) (hk : e ≤ k)
    (hUnseen : row.UnseenFrom own) :
    ∀ depth ∈ d.depthAt? k, row.Hidden (d.rowsBetween place k) depth := by
  intro depth hOther
  rcases Nat.lt_or_eq_of_le hk with hLt | rfl
  · obtain ⟨bound, hMem, rfl⟩ := exists_mem_rowsBetween hDepth he hLt
    exact .inr ⟨bound, hMem, hUnseen⟩
  · obtain rfl : own = depth := Option.some.inj (hDepth.symm.trans hOther)
    exact .inl hUnseen

end Document

/-- **A new row with data changes paths only nearby.** The rows above it keep their
paths. Below it, let a row with data be shallower than the new row, or no deeper
if the new row is no item. That row keeps its path and so do all rows further
down, one line down; it need not be the first such row, but the first one tells
most. -/
theorem new_data_changes_paths_locally {d : Document} {place : Nat} (hPlace : place ≤ d.length)
    {text : Text} {line : Line} (hData : (Row.read place text).dataLine? = some line) :
    (∀ k < place, (d.indexed.insertAt place text).pathAt? k = d.indexed.pathAt? k) ∧
    ∀ e own, place ≤ e → d.depthAt? e = some own →
      (if line.isItem then own < line.depth d.levelWidth else own ≤ line.depth d.levelWidth) →
      ∀ k, e ≤ k → (d.indexed.insertAt place text).pathAt? (k + 1) = d.indexed.pathAt? k := by
  have hRow : OutlineRow.ofText? d.levelWidth text = some (.ofLine d.levelWidth line) := by
    rw [OutlineRow.ofText?_eq_read d.levelWidth place, hData, Option.map_some]
  have hNew : ∀ n, (d.indexed.insertAt place text).pathAt? n = (d.insertAt place text).pathAt? n :=
    (d.insertAt place text).pathAt?_indexed
  refine ⟨fun k hk => ?_, fun e own he hDepth hBound k hk => ?_⟩
  · rw [hNew, Document.pathAt?_indexed, Document.pathAt?_insertAt_of_lt hPlace hk]
  · have hUnseen : (OutlineRow.ofLine d.levelWidth line).UnseenFrom own := by
      rw [OutlineRow.UnseenFrom, OutlineRow.isItem_ofLine]
      exact hBound
    rw [hNew, Document.pathAt?_indexed]
    exact Document.pathAt?_insertAt_succ hPlace (Nat.le_trans he hk) hRow
      (Document.hidden_of_le hDepth he hk hUnseen)

/-- An item put in between two others. The one below it is renumbered; the next
entry of the mapping and what belongs to it stay. -/
theorem new_data_changes_paths_locally_item :
    ∃ (d : Document) (line : Line),
      d.rows = ["a:".toList, "  - x".toList, "  - y".toList, "b:".toList, "    c: 1".toList] ∧
      2 ≤ d.length ∧ (Row.read 2 "  - z # new".toList).dataLine? = some line ∧
      d.depthAt? 3 = some 0 ∧
      (if line.isItem then 0 < line.depth d.levelWidth else 0 ≤ line.depth d.levelWidth) ∧
      (d.indexed.insertAt 2 "  - z # new".toList).pathAt? 1 = d.indexed.pathAt? 1 ∧
      (d.indexed.insertAt 2 "  - z # new".toList).pathAt? 3 ≠ d.indexed.pathAt? 2 ∧
      (d.indexed.insertAt 2 "  - z # new".toList).pathAt? (4 + 1) = d.indexed.pathAt? 4 := by
  have hPlace : 2 ≤ (Document.ofRows 2 ["a:".toList, "  - x".toList, "  - y".toList, "b:".toList,
      "    c: 1".toList]).length := by decide
  obtain ⟨hAbove, hBelow⟩ := new_data_changes_paths_locally hPlace
    (show (Row.read 2 "  - z # new".toList).dataLine?
      = some (.ofData 2 "  - z # new".toList "- z".toList) by decide)
  refine ⟨_, _, rfl, hPlace, rfl, by decide, by decide, hAbove 1 (by decide), by decide, ?_⟩
  exact hBelow 3 0 (by decide) (by decide) (by decide) 4 (by decide)

end Marginalia
