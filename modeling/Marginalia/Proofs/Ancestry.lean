import Marginalia.Proofs.Reading

/-!
# The ancestry of a row

The outline finds a path by searching upwards: from a row to the nearest
shallower row above it, from there to the nearest row that is shallower still,
and so on to the root. Here the same path is described from the whole document
at once, without a search:

* a row *encloses* a later one when every row with data below it, down to and including the later one, is
  strictly deeper;
* the path of a row lists the steps of the rows that enclose it, from the top, and ends with its own step;
* the position of an item counts the earlier items of exactly its depth from which no shallower row
  separates it.

The rows that enclose a row are the strict minima of depth towards it, so the
two descriptions agree on every document, however irregular its indentation.

## Results

* `Document.steps_parentPath` — the upward search passes exactly the enclosing rows.
* `Document.position_rowsAbove` — the count below the parent is the position in the whole document.
* `Document.pathTable_eq_ancestry` — the table of paths, described without a search.
-/

namespace Marginalia

namespace Document

-- ---------------------------------------------------------------------------
-- The description
-- ---------------------------------------------------------------------------

/-- The depth of a row, if it has data. -/
def depthAt? (d : Document) (number : Nat) : Option Nat :=
  (d.dataLineAt? number).map (Line.depth d.levelWidth)

/-- Row `j` has data, and all rows with data after it, up to and including row
`n`, are strictly deeper. -/
def Encloses (d : Document) (j n : Nat) : Prop :=
  ∃ depth ∈ d.depthAt? j, ∀ k ≤ n, j < k → ∀ other ∈ d.depthAt? k, depth < other

instance (d : Document) (j n : Nat) : Decidable (d.Encloses j n) :=
  inferInstanceAs (Decidable (∃ depth ∈ d.depthAt? j,
    ∀ k ≤ n, j < k → ∀ other ∈ d.depthAt? k, depth < other))

/-- The rows above row `n` that enclose it, from the top. -/
def enclosing (d : Document) (n : Nat) : List Nat :=
  (List.range n).filter fun j => d.Encloses j n

/-- Row `k` is an item at exactly this depth, and no row with data strictly
between it and row `j` is shallower. -/
def IsEarlierItem (d : Document) (depth j k : Nat) : Prop :=
  ∃ line ∈ d.dataLineAt? k, line.isItem ∧ line.depth d.levelWidth = depth ∧
    ∀ l < j, k < l → ∀ other ∈ d.depthAt? l, depth ≤ other

instance (d : Document) (depth j k : Nat) : Decidable (d.IsEarlierItem depth j k) :=
  inferInstanceAs (Decidable (∃ line ∈ d.dataLineAt? k,
    line.isItem ∧ line.depth d.levelWidth = depth ∧
    ∀ l < j, k < l → ∀ other ∈ d.depthAt? l, depth ≤ other))

/-- The number of earlier items that row `j` continues as an item at this depth. -/
def itemPosition (d : Document) (depth j : Nat) : Nat :=
  (List.range j).countP fun k => d.IsEarlierItem depth j k

/-- The step of a row with data: its key, or its position for an item. -/
def stepAt? (d : Document) (j : Nat) : Option Step :=
  (d.dataLineAt? j).map fun line =>
    if line.isItem then .item (d.itemPosition (line.depth d.levelWidth) j) else .key line.key

/-- The path of a row: the steps of the rows that enclose it, and its own. -/
def ancestry (d : Document) (n : Nat) : Path :=
  ⟨(d.enclosing n ++ [n]).filterMap d.stepAt?⟩

theorem depthAt?_of_none {d : Document} {n : Nat} (hRow : d.dataLineAt? n = none) :
    d.depthAt? n = none := by
  rw [depthAt?, hRow]
  rfl

theorem depthAt?_of_some {d : Document} {n : Nat} {line : Line}
    (hRow : d.dataLineAt? n = some line) :
    d.depthAt? n = some (line.depth d.levelWidth) := by
  rw [depthAt?, hRow]
  rfl

-- ---------------------------------------------------------------------------
-- The search, one row at a time
-- ---------------------------------------------------------------------------

theorem rowsAbove_zero (d : Document) : d.rowsAbove 0 = [] := by
  simp [rowsAbove, Outline.rowsAbove]

theorem rowsAbove_succ (d : Document) (n : Nat) :
    d.rowsAbove (n + 1)
      = ((d.dataLineAt? n).map (OutlineRow.ofLine d.levelWidth)).toList ++ d.rowsAbove n := by
  rw [← join_getElem?_outline, rowsAbove, rowsAbove, Outline.rowsAbove, Outline.rowsAbove,
    List.take_add_one, List.filterMap_append, List.reverse_append]
  congr 1
  cases d.outline[n]? with
  | none => rfl
  | some row? => cases row? <;> rfl

theorem rowsAbove_succ_of_none {d : Document} {n : Nat} (hRow : d.dataLineAt? n = none) :
    d.rowsAbove (n + 1) = d.rowsAbove n := by
  rw [rowsAbove_succ, hRow]
  rfl

theorem rowsAbove_succ_of_some {d : Document} {n : Nat} {line : Line}
    (hRow : d.dataLineAt? n = some line) :
    d.rowsAbove (n + 1) = OutlineRow.ofLine d.levelWidth line :: d.rowsAbove n := by
  rw [rowsAbove_succ, hRow]
  rfl

/-- Row `j` has data, is shallower than `depth`, and than all rows with data
after it and before row `n`. -/
def Overlooks (d : Document) (depth n j : Nat) : Prop :=
  ∃ own ∈ d.depthAt? j, own < depth ∧ ∀ k < n, j < k → ∀ other ∈ d.depthAt? k, own < other

instance (d : Document) (depth n j : Nat) : Decidable (d.Overlooks depth n j) :=
  inferInstanceAs (Decidable (∃ own ∈ d.depthAt? j, own < depth ∧
    ∀ k < n, j < k → ∀ other ∈ d.depthAt? k, own < other))

/-- The rows above row `n` that overlook everything from there to row `n`, from
the top. -/
def overlooking (d : Document) (depth n : Nat) : List Nat :=
  (List.range n).filter fun j => d.Overlooks depth n j

/-- The enclosing rows of a row overlook everything from there to the row,
itself included. -/
theorem enclosing_eq_overlooking {d : Document} {n depth : Nat}
    (hDepth : d.depthAt? n = some depth) :
    d.enclosing n = d.overlooking depth n := by
  apply List.filter_congr
  intro j hj
  have hjn : j < n := List.mem_range.mp hj
  rw [decide_eq_decide]
  constructor
  · rintro ⟨own, hOwn, hAll⟩
    exact ⟨own, hOwn, hAll n (Nat.le_refl n) hjn depth hDepth,
      fun k hk => hAll k (Nat.le_of_lt hk)⟩
  · rintro ⟨own, hOwn, hLt, hAll⟩
    refine ⟨own, hOwn, fun k hk hjk other hOther => ?_⟩
    rcases Nat.lt_or_eq_of_le hk with hlt | rfl
    · exact hAll k hlt hjk other hOther
    · have : depth = other := Option.some.inj (hDepth.symm.trans hOther)
      omega

theorem overlooks_succ_of_none {d : Document} {n : Nat} (hRow : d.depthAt? n = none)
    (depth j : Nat) :
    d.Overlooks depth (n + 1) j ↔ d.Overlooks depth n j := by
  constructor
  · rintro ⟨own, hOwn, hLt, hAll⟩
    exact ⟨own, hOwn, hLt, fun k hk => hAll k (Nat.lt_succ_of_lt hk)⟩
  · rintro ⟨own, hOwn, hLt, hAll⟩
    refine ⟨own, hOwn, hLt, fun k hk hjk other hOther => ?_⟩
    rcases Nat.lt_succ_iff_lt_or_eq.mp hk with hlt | rfl
    · exact hAll k hlt hjk other hOther
    · rw [hRow] at hOther
      cases hOther

/-- To overlook one more row with data is to be shallower than that row as well. -/
theorem overlooks_succ_of_some {d : Document} {n own : Nat} (hRow : d.depthAt? n = some own)
    (depth : Nat) {j : Nat} (hj : j < n) :
    d.Overlooks depth (n + 1) j ↔ d.Overlooks (min depth own) n j := by
  constructor
  · rintro ⟨upper, hUpper, hLt, hAll⟩
    have hOwn : upper < own := hAll n (Nat.lt_succ_self n) hj own hRow
    exact ⟨upper, hUpper, by omega, fun k hk => hAll k (Nat.lt_succ_of_lt hk)⟩
  · rintro ⟨upper, hUpper, hLt, hAll⟩
    refine ⟨upper, hUpper, by omega, fun k hk hjk other hOther => ?_⟩
    rcases Nat.lt_succ_iff_lt_or_eq.mp hk with hlt | rfl
    · exact hAll k hlt hjk other hOther
    · have : own = other := Option.some.inj (hRow.symm.trans hOther)
      omega

/-- The row right above overlooks nothing but itself. -/
theorem overlooks_self {d : Document} {n own : Nat} (hRow : d.depthAt? n = some own) (depth : Nat) :
    d.Overlooks depth (n + 1) n ↔ own < depth := by
  constructor
  · rintro ⟨upper, hUpper, hLt, -⟩
    have : own = upper := Option.some.inj (hRow.symm.trans hUpper)
    omega
  · intro hLt
    exact ⟨own, hRow, hLt, fun k hk hnk => by omega⟩

theorem overlooking_succ_of_none {d : Document} {n : Nat} (hRow : d.depthAt? n = none)
    (depth : Nat) :
    d.overlooking depth (n + 1) = d.overlooking depth n := by
  have hFront : (List.range n).filter (fun j => d.Overlooks depth (n + 1) j)
      = d.overlooking depth n :=
    List.filter_congr fun j _ => by
      rw [decide_eq_decide]
      exact overlooks_succ_of_none hRow depth j
  have hLast : ¬ d.Overlooks depth (n + 1) n := by
    rintro ⟨own, hOwn, -⟩
    rw [hRow] at hOwn
    cases hOwn
  rw [overlooking, List.range_succ, List.filter_append, hFront]
  simp [hLast]

/-- One more row with data: a shallower one is overlooked by fewer rows and
overlooks in their place, any other one changes nothing. -/
theorem overlooking_succ_of_some {d : Document} {n own : Nat} (hRow : d.depthAt? n = some own)
    (depth : Nat) :
    d.overlooking depth (n + 1)
      = if own < depth then d.overlooking own n ++ [n] else d.overlooking depth n := by
  have hFront : (List.range n).filter (fun j => d.Overlooks depth (n + 1) j)
      = d.overlooking (min depth own) n :=
    List.filter_congr fun j hj => by
      rw [decide_eq_decide]
      exact overlooks_succ_of_some hRow depth (List.mem_range.mp hj)
  rw [overlooking, List.range_succ, List.filter_append, hFront]
  by_cases hLt : own < depth
  · rw [if_pos hLt, Nat.min_eq_right (Nat.le_of_lt hLt)]
    simp [(overlooks_self hRow depth).mpr hLt]
  · rw [if_neg hLt, Nat.min_eq_left (Nat.le_of_not_lt hLt)]
    simp [mt (overlooks_self hRow depth).mp hLt]

-- ---------------------------------------------------------------------------
-- Positions
-- ---------------------------------------------------------------------------

theorem isEarlierItem_succ_of_none {d : Document} {n : Nat} (hRow : d.depthAt? n = none)
    (depth k : Nat) :
    d.IsEarlierItem depth (n + 1) k ↔ d.IsEarlierItem depth n k := by
  constructor
  · rintro ⟨line, hLine, hItem, hDepth, hAll⟩
    exact ⟨line, hLine, hItem, hDepth, fun l hl => hAll l (Nat.lt_succ_of_lt hl)⟩
  · rintro ⟨line, hLine, hItem, hDepth, hAll⟩
    refine ⟨line, hLine, hItem, hDepth, fun l hl hkl other hOther => ?_⟩
    rcases Nat.lt_succ_iff_lt_or_eq.mp hl with hlt | rfl
    · exact hAll l hlt hkl other hOther
    · rw [hRow] at hOther
      cases hOther

/-- One more row with data keeps the earlier items only if it is not shallower
than they are. -/
theorem isEarlierItem_succ_of_some {d : Document} {n own : Nat} (hRow : d.depthAt? n = some own)
    (depth : Nat) {k : Nat} (hk : k < n) :
    d.IsEarlierItem depth (n + 1) k ↔ depth ≤ own ∧ d.IsEarlierItem depth n k := by
  constructor
  · rintro ⟨line, hLine, hItem, hDepth, hAll⟩
    exact ⟨hAll n (Nat.lt_succ_self n) hk own hRow,
      line, hLine, hItem, hDepth, fun l hl => hAll l (Nat.lt_succ_of_lt hl)⟩
  · rintro ⟨hLe, line, hLine, hItem, hDepth, hAll⟩
    refine ⟨line, hLine, hItem, hDepth, fun l hl hkl other hOther => ?_⟩
    rcases Nat.lt_succ_iff_lt_or_eq.mp hl with hlt | rfl
    · exact hAll l hlt hkl other hOther
    · have : own = other := Option.some.inj (hRow.symm.trans hOther)
      omega

theorem isEarlierItem_self (d : Document) (depth n : Nat) :
    d.IsEarlierItem depth (n + 1) n
      ↔ ∃ line ∈ d.dataLineAt? n, line.isItem ∧ line.depth d.levelWidth = depth := by
  constructor
  · rintro ⟨line, hLine, hItem, hDepth, -⟩
    exact ⟨line, hLine, hItem, hDepth⟩
  · rintro ⟨line, hLine, hItem, hDepth⟩
    exact ⟨line, hLine, hItem, hDepth, fun l hl hkl => by omega⟩

theorem itemPosition_succ (d : Document) (depth n : Nat) :
    d.itemPosition depth (n + 1)
      = (List.range n).countP (fun k => d.IsEarlierItem depth (n + 1) k)
        + if d.IsEarlierItem depth (n + 1) n then 1 else 0 := by
  rw [itemPosition, List.range_succ, List.countP_append, List.countP_singleton]
  simp

/-- The count down from the parent is the position in the whole document. By
induction on the number of rows above: the count stops at the first row that is
shallower, and no item above that row counts. -/
theorem position_rowsAbove (d : Document) (depth n : Nat) :
    OutlineRow.position depth (d.rowsAbove n) = d.itemPosition depth n := by
  induction n with
  | zero => rw [rowsAbove_zero]; rfl
  | succ n ih =>
    rw [itemPosition_succ]
    cases hRow : d.dataLineAt? n with
    | none =>
      have hDepth := depthAt?_of_none hRow
      have hFront : (List.range n).countP (fun k => d.IsEarlierItem depth (n + 1) k)
          = d.itemPosition depth n :=
        List.countP_congr fun k _ => by simp [isEarlierItem_succ_of_none hDepth]
      have hLast : ¬ d.IsEarlierItem depth (n + 1) n := by
        rw [isEarlierItem_self, hRow]
        simp
      rw [rowsAbove_succ_of_none hRow, ih, hFront, if_neg hLast, Nat.add_zero]
    | some line =>
      have hDepth := depthAt?_of_some hRow
      have hLast : d.IsEarlierItem depth (n + 1) n
          ↔ line.isItem ∧ line.depth d.levelWidth = depth := by
        rw [isEarlierItem_self, hRow]
        simp
      rw [rowsAbove_succ_of_some hRow, OutlineRow.position_cons, OutlineRow.depth_ofLine,
        OutlineRow.isItem_ofLine, ih]
      by_cases hLe : depth ≤ line.depth d.levelWidth
      · have hFront : (List.range n).countP (fun k => d.IsEarlierItem depth (n + 1) k)
            = d.itemPosition depth n :=
          List.countP_congr fun k hk => by
            simp [isEarlierItem_succ_of_some hDepth depth (List.mem_range.mp hk), hLe]
        rw [if_pos hLe, hFront]
        simp only [hLast]
      · have hFront : (List.range n).countP (fun k => d.IsEarlierItem depth (n + 1) k) = 0 :=
          List.countP_eq_zero.mpr fun k hk => by
            simp [isEarlierItem_succ_of_some hDepth depth (List.mem_range.mp hk), hLe]
        have hNot : ¬ (line.isItem ∧ line.depth d.levelWidth = depth) := by
          rintro ⟨-, rfl⟩
          exact hLe (Nat.le_refl _)
        rw [if_neg hLe, hFront, if_neg (mt hLast.mp hNot)]

-- ---------------------------------------------------------------------------
-- Paths
-- ---------------------------------------------------------------------------

/-- The last step that the outline gives a row is its step in the whole
document. -/
theorem stepAt?_eq_step {d : Document} {n : Nat} {line : Line}
    (hRow : d.dataLineAt? n = some line) :
    d.stepAt? n = some ((OutlineRow.ofLine d.levelWidth line).step (d.rowsAbove n)) := by
  rw [stepAt?, hRow, Option.map_some, OutlineRow.step, OutlineRow.ofLine, position_rowsAbove]
  cases line.isItem <;> rfl

/-- **The upward search passes exactly the rows that overlook the way.** By
induction on the number of rows above: the search asks the nearest of them
first, and goes on with that row's depth or with the old one. -/
theorem steps_parentPath (d : Document) (depth n : Nat) :
    (OutlineRow.parentPath depth (d.rowsAbove n)).steps
      = (d.overlooking depth n).filterMap d.stepAt? := by
  induction n generalizing depth with
  | zero => rw [rowsAbove_zero]; rfl
  | succ n ih =>
    cases hRow : d.dataLineAt? n with
    | none =>
      have hDepth := depthAt?_of_none hRow
      rw [rowsAbove_succ_of_none hRow, overlooking_succ_of_none hDepth, ih]
    | some line =>
      have hDepth := depthAt?_of_some hRow
      rw [rowsAbove_succ_of_some hRow, overlooking_succ_of_some hDepth]
      by_cases hLt : line.depth d.levelWidth < depth
      · rw [OutlineRow.parentPath_cons_of_lt hLt, if_pos hLt, OutlineRow.path, Path.steps_child,
          List.filterMap_append]
        rw [OutlineRow.depth_ofLine, ih]
        simp [stepAt?_eq_step hRow]
      · rw [OutlineRow.parentPath_cons_of_le (Nat.le_of_not_lt hLt), if_neg hLt, ih]

/-- The path of a row is its ancestry. -/
theorem pathAt?_eq_ancestry (d : Document) (n : Nat) :
    d.pathAt? n = (d.dataLineAt? n).map fun _ => d.ancestry n := by
  rw [pathAt?_eq]
  cases hRow : d.dataLineAt? n with
  | none => rfl
  | some line =>
    have hDepth := depthAt?_of_some hRow
    rw [Option.map_some, Option.map_some, OutlineRow.path, Path.child, OutlineRow.depth_ofLine,
      steps_parentPath, ancestry, List.filterMap_append, enclosing_eq_overlooking hDepth]
    simp [stepAt?_eq_step hRow]

theorem pathTable_eq_range (d : Document) :
    d.pathTable = (List.range d.length).filterMap fun n => (d.pathAt? n).map fun p => (n, p) := by
  have hEntries : d.paths.zipIdx = (List.range d.length).map fun n => (d.pathAt? n, n) := by
    apply List.ext_getElem
    · simp [length_paths, length]
    · intro n hn _
      have hn : n < d.paths.length := by simpa using hn
      simp [pathAt?, hn]
  rw [pathTable, hEntries, List.filterMap_map]
  rfl

/-- **The table of paths, described without a search.** It lists exactly the
rows with data, in order, each with its ancestry: the steps of the rows above
that enclose it, and its own step. -/
theorem pathTable_eq_ancestry (d : Document) :
    d.pathTable
      = (List.range d.length).filterMap fun n =>
          (d.dataLineAt? n).map fun _ => (n, d.ancestry n) := by
  rw [pathTable_eq_range]
  simp only [pathAt?_eq_ancestry, Option.map_map, Function.comp_def]

end Document

end Marginalia
