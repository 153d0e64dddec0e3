import Marginalia.Proofs.Ancestry

/-!
# Rows that their paths tell apart

A path goes from parent to child, so two rows share a path exactly if their
parents do and the last steps agree. If all rows have paths of their own, the
line of a row's path is the row. What stands in the way is local: two rows with
the same parent whose steps cannot differ.

* Two entries with the same key have the same step.
* Items of one depth are counted one after the other, so no two of them have the same position. But each depth
  has a count of its own: where a parent has items at two depths, the first item of either depth is at
  position zero.

Nothing else does: under one parent a key and a position are different steps,
and under different parents the paths differ by induction from the top.

## Results

* `Document.parentPath_rowsAbove` — the upward search starts with the path of the parent.
* `Document.pathAt?_eq_child`     — a path is the path of the parent and the step of the row.
* `Document.itemPosition_lt`      — items of one depth have ascending positions.
* `Document.exists_first_item`    — each item has a first one of its depth below the same parent.
* `Document.pathsIdentify_iff`    — when paths identify lines.
-/

namespace Marginalia

namespace Document

-- ---------------------------------------------------------------------------
-- Parents
-- ---------------------------------------------------------------------------

/-- The nearest row with data above row `n` that is shallower than `depth`. -/
def nearestAbove? (d : Document) (depth n : Nat) : Option Nat :=
  (List.range n).reverse.find? fun j => ∃ own ∈ d.depthAt? j, own < depth

/-- The parent of a row with data: the nearest row with data above it that is
strictly shallower. -/
def parentAt? (d : Document) (n : Nat) : Option Nat :=
  (d.depthAt? n).bind fun depth => d.nearestAbove? depth n

/-- The path of the parent of a row, or the root if it has none. -/
def parentPathAt (d : Document) (n : Nat) : Path :=
  ((d.parentAt? n).bind d.pathAt?).getD .root

variable {d : Document} {depth k m n : Nat} {line : Line}

theorem nearestAbove?_succ (d : Document) (depth n : Nat) :
    d.nearestAbove? depth (n + 1)
      = if ∃ own ∈ d.depthAt? n, own < depth then some n else d.nearestAbove? depth n := by
  unfold nearestAbove?
  rw [List.range_succ, List.reverse_append, List.reverse_singleton, List.singleton_append,
    List.find?_cons]
  by_cases hOwn : ∃ own ∈ d.depthAt? n, own < depth
  · rw [decide_eq_true hOwn, if_pos hOwn]
  · rw [decide_eq_false hOwn, if_neg hOwn]

theorem parentAt?_of_some (hRow : d.dataLineAt? n = some line) :
    d.parentAt? n = d.nearestAbove? (line.depth d.levelWidth) n := by
  rw [parentAt?, depthAt?_of_some hRow, Option.bind_some]

/-- The row that is found is above, has data, and is shallower. -/
theorem of_nearestAbove?_eq_some {j : Nat} (hNearest : d.nearestAbove? depth n = some j) :
    j < n ∧ ∃ own ∈ d.depthAt? j, own < depth := by
  unfold nearestAbove? at hNearest
  have hMem := List.mem_of_find?_eq_some hNearest
  rw [List.mem_reverse, List.mem_range] at hMem
  exact ⟨hMem, by simpa using List.find?_some hNearest⟩

/-- No row below the one that is found is shallower. -/
theorem le_of_nearestAbove?_lt (hLt : k < n) (hAfter : ∀ j ∈ d.nearestAbove? depth n, j < k) :
    ∀ other ∈ d.depthAt? k, depth ≤ other := by
  induction n with
  | zero => omega
  | succ n ih =>
    rw [nearestAbove?_succ] at hAfter
    split at hAfter
    · have := hAfter n rfl
      omega
    · next hOwn =>
      rcases Nat.lt_succ_iff_lt_or_eq.mp hLt with hk | rfl
      · exact ih hk hAfter
      · intro other hOther
        exact Nat.le_of_not_lt fun hShallow => hOwn ⟨other, hOther, hShallow⟩

/-- Rows that are not shallower do not matter to the search. -/
theorem nearestAbove?_of_le (hLe : k ≤ n)
    (hBetween : ∀ l < n, k ≤ l → ∀ other ∈ d.depthAt? l, depth ≤ other) :
    d.nearestAbove? depth n = d.nearestAbove? depth k := by
  induction hLe with
  | refl => rfl
  | @step n hkn ih =>
    have hOwn : ¬ ∃ own ∈ d.depthAt? n, own < depth := by
      rintro ⟨own, hMem, hShallow⟩
      have := hBetween n (Nat.lt_succ_self n) hkn own hMem
      omega
    rw [nearestAbove?_succ, if_neg hOwn]
    exact ih fun l hl => hBetween l (Nat.lt_succ_of_lt hl)

theorem isSome_pathAt?_of_depthAt? {own : Nat} (hOwn : d.depthAt? n = some own) :
    (d.pathAt? n).isSome := by
  rw [isSome_pathAt?, ← Option.isSome_map, ← depthAt?, hOwn]
  rfl

-- ---------------------------------------------------------------------------
-- Paths from parent to child
-- ---------------------------------------------------------------------------

/-- **The upward search starts with the path of the nearest shallower row.** -/
theorem parentPath_rowsAbove (d : Document) (depth n : Nat) :
    OutlineRow.parentPath depth (d.rowsAbove n)
      = ((d.nearestAbove? depth n).bind d.pathAt?).getD .root := by
  induction n with
  | zero => rw [rowsAbove_zero]; rfl
  | succ n ih =>
    rw [nearestAbove?_succ]
    cases hRow : d.dataLineAt? n with
    | none =>
      rw [rowsAbove_succ_of_none hRow, depthAt?_of_none hRow, if_neg (by simp), ih]
    | some line =>
      rw [rowsAbove_succ_of_some hRow, depthAt?_of_some hRow]
      by_cases hLt : line.depth d.levelWidth < depth
      · rw [OutlineRow.parentPath_cons_of_lt hLt, if_pos ⟨_, rfl, hLt⟩, Option.bind_some, pathAt?_eq,
          hRow]
        rfl
      · rw [OutlineRow.parentPath_cons_of_le (Nat.le_of_not_lt hLt), if_neg (by simpa using hLt), ih]

/-- A path is the path of the parent and the step of the row. -/
theorem pathAt?_eq_child (d : Document) (n : Nat) :
    d.pathAt? n = (d.stepAt? n).map (d.parentPathAt n).child := by
  cases hRow : d.dataLineAt? n with
  | none => rw [pathAt?_eq, stepAt?, hRow]; rfl
  | some line =>
    rw [pathAt?_eq, hRow, stepAt?_eq_step hRow, Option.map_some, Option.map_some, OutlineRow.path,
      OutlineRow.depth_ofLine, parentPath_rowsAbove, parentPathAt, parentAt?_of_some hRow]

/-- Rows with the same parent and the same step have the same path. -/
theorem pathAt?_congr (hParent : d.parentAt? m = d.parentAt? n) (hStep : d.stepAt? m = d.stepAt? n) :
    d.pathAt? m = d.pathAt? n := by
  rw [pathAt?_eq_child, pathAt?_eq_child, hStep, parentPathAt, parentPathAt, hParent]

theorem stepAt?_of_item (hRow : d.dataLineAt? n = some line) (hItem : line.isItem = true) :
    d.stepAt? n = some (.item (d.itemPosition (line.depth d.levelWidth) n)) := by
  rw [stepAt?, hRow, Option.map_some, if_pos hItem]

/-- The same step leads to entries with the same key and to items at the same
position. -/
theorem stepAt?_eq_iff {a b : Line} (hm : d.dataLineAt? m = some a) (hn : d.dataLineAt? n = some b) :
    d.stepAt? m = d.stepAt? n ↔
      a.isItem = false ∧ b.isItem = false ∧ a.key = b.key ∨
      a.isItem = true ∧ b.isItem = true ∧
        d.itemPosition (a.depth d.levelWidth) m = d.itemPosition (b.depth d.levelWidth) n := by
  rw [stepAt?, stepAt?, hm, hn, Option.map_some, Option.map_some, Option.some.injEq]
  cases a.isItem <;> cases b.isItem <;> simp

-- ---------------------------------------------------------------------------
-- Positions below one parent
-- ---------------------------------------------------------------------------

/-- A row that is not shallower keeps the count. -/
theorem itemPosition_le_succ (hLe : ∀ other ∈ d.depthAt? n, depth ≤ other) :
    d.itemPosition depth n ≤ d.itemPosition depth (n + 1) := by
  rw [← position_rowsAbove, ← position_rowsAbove]
  cases hRow : d.dataLineAt? n with
  | none => exact Nat.le_of_eq (by rw [rowsAbove_succ_of_none hRow])
  | some line =>
    rw [rowsAbove_succ_of_some hRow, OutlineRow.position_cons, OutlineRow.depth_ofLine,
      if_pos (hLe _ (depthAt?_of_some hRow))]
    omega

/-- An item of the depth that is counted counts. -/
theorem itemPosition_succ_of_item (hRow : d.dataLineAt? n = some line) (hItem : line.isItem = true) :
    d.itemPosition (line.depth d.levelWidth) (n + 1)
      = d.itemPosition (line.depth d.levelWidth) n + 1 := by
  rw [← position_rowsAbove, ← position_rowsAbove, rowsAbove_succ_of_some hRow,
    OutlineRow.position_cons, OutlineRow.depth_ofLine, OutlineRow.isItem_ofLine,
    if_pos (Nat.le_refl _), if_pos ⟨hItem, rfl⟩]

/-- **Items of one depth have ascending positions**, as long as no shallower row
stands between them. -/
theorem itemPosition_lt (hRow : d.dataLineAt? m = some line) (hItem : line.isItem = true)
    (hLt : m < n)
    (hBetween : ∀ l < n, m < l → ∀ other ∈ d.depthAt? l, line.depth d.levelWidth ≤ other) :
    d.itemPosition (line.depth d.levelWidth) m < d.itemPosition (line.depth d.levelWidth) n := by
  induction hLt with
  | refl =>
    rw [itemPosition_succ_of_item hRow hItem]
    omega
  | @step n hmn ih =>
    have hLast := itemPosition_le_succ (hBetween n (Nat.lt_succ_self n) hmn)
    have hFront := ih fun l hl => hBetween l (Nat.lt_succ_of_lt hl)
    exact Nat.lt_of_lt_of_le hFront hLast

/-- **Each item has a first one of its depth below the same parent.** By
induction on the number of the row: an earlier item that is counted has the same
parent, since no shallower row stands between the two. -/
theorem exists_first_item (hRow : d.dataLineAt? n = some line) (hItem : line.isItem = true) :
    ∃ f first, d.dataLineAt? f = some first ∧
      first.depth d.levelWidth = line.depth d.levelWidth ∧
      d.parentAt? f = d.parentAt? n ∧ d.stepAt? f = some (.item 0) := by
  induction n using Nat.strongRecOn generalizing line with
  | ind n ih =>
    rcases Nat.eq_zero_or_pos (d.itemPosition (line.depth d.levelWidth) n) with hZero | hPos
    · exact ⟨n, line, hRow, rfl, rfl, by rw [stepAt?_of_item hRow hItem, hZero]⟩
    · obtain ⟨k, hk, hEarlier⟩ := List.countP_pos_iff.mp hPos
      obtain ⟨other, hOther, hOtherItem, hDepth, hBetween⟩ := of_decide_eq_true hEarlier
      have hkn : k < n := List.mem_range.mp hk
      obtain ⟨f, first, hFirst, hFirstDepth, hParent, hStep⟩ := ih k hkn hOther hOtherItem
      have hSame : d.parentAt? n = d.parentAt? k := by
        rw [parentAt?_of_some hRow, parentAt?_of_some hOther, hDepth]
        apply nearestAbove?_of_le (Nat.le_of_lt hkn)
        intro l hl hkl own hOwn
        rcases Nat.lt_or_eq_of_le hkl with hLater | rfl
        · exact hBetween l hl hLater own hOwn
        · have : other.depth d.levelWidth = own :=
            Option.some.inj ((depthAt?_of_some hOther).symm.trans hOwn)
          omega
      exact ⟨f, first, hFirst, hFirstDepth.trans hDepth, hParent.trans hSame.symm, hStep⟩

-- ---------------------------------------------------------------------------
-- When paths identify lines
-- ---------------------------------------------------------------------------

/-- No two lines have the same path. -/
def PathsIdentify (d : Document) : Prop :=
  ∀ m n p, d.pathAt? m = some p → d.pathAt? n = some p → m = n

/-- Two rows with the same parent, or both without one, whose paths cannot be
told apart or lead to others that cannot: two entries with the same key, or two
items at different depths. -/
def Collides (d : Document) (m n : Nat) : Prop :=
  d.parentAt? m = d.parentAt? n ∧ ∃ a ∈ d.dataLineAt? m, ∃ b ∈ d.dataLineAt? n,
    a.isItem = false ∧ b.isItem = false ∧ a.key = b.key ∨
    a.isItem = true ∧ b.isItem = true ∧ a.depth d.levelWidth ≠ b.depth d.levelWidth

instance (d : Document) (m n : Nat) : Decidable (d.Collides m n) :=
  inferInstanceAs (Decidable (d.parentAt? m = d.parentAt? n ∧
    ∃ a ∈ d.dataLineAt? m, ∃ b ∈ d.dataLineAt? n,
      a.isItem = false ∧ b.isItem = false ∧ a.key = b.key ∨
      a.isItem = true ∧ b.isItem = true ∧ a.depth d.levelWidth ≠ b.depth d.levelWidth))

theorem pathsIdentify_iff_lineOf? :
    d.PathsIdentify ↔ ∀ n p, d.pathAt? n = some p → d.lineOf? p = some n := by
  constructor
  · intro hIdentify n p hPath
    refine lineOf?_eq_some_iff.mpr ⟨hPath, fun k hk hOther => ?_⟩
    have := hIdentify k n p hOther hPath
    omega
  · intro hLine m n p hm hn
    exact Option.some.inj ((hLine m p hm).symm.trans (hLine n p hn))

/-- Rows that collide leave two lines with one path. -/
theorem PathsIdentify.not_collides (hIdentify : d.PathsIdentify) (hNe : m ≠ n) :
    ¬ d.Collides m n := by
  rintro ⟨hParent, a, hm, b, hn, hSteps⟩
  rcases hSteps with ⟨haItem, hbItem, hKey⟩ | ⟨haItem, hbItem, hDepth⟩
  · have hStep := (stepAt?_eq_iff hm hn).mpr (.inl ⟨haItem, hbItem, hKey⟩)
    have hPath := pathAt?_congr hParent hStep
    obtain ⟨p, hp⟩ := Option.isSome_iff_exists.mp
      (isSome_pathAt?_of_depthAt? (depthAt?_of_some hm))
    exact hNe (hIdentify m n p hp (hPath ▸ hp))
  · -- the first items of the two depths are both at position zero
    obtain ⟨f, first, hFirst, hFirstDepth, hFirstParent, hFirstStep⟩ := exists_first_item hm haItem
    obtain ⟨g, other, hOther, hOtherDepth, hOtherParent, hOtherStep⟩ := exists_first_item hn hbItem
    have hPath : d.pathAt? f = d.pathAt? g := by
      apply pathAt?_congr
      · rw [hFirstParent, hParent, hOtherParent]
      · rw [hFirstStep, hOtherStep]
    obtain ⟨p, hp⟩ := Option.isSome_iff_exists.mp
      (isSome_pathAt?_of_depthAt? (depthAt?_of_some hFirst))
    have hSame : f = g := hIdentify f g p hp (hPath ▸ hp)
    subst hSame
    have hLine : first = other := Option.some.inj (hFirst.symm.trans hOther)
    exact hDepth (by rw [← hFirstDepth, ← hOtherDepth, hLine])

/-- A row with a path has a step, and its path is one step longer than that of
its parent. -/
theorem exists_step_of_pathAt? {p : Path} (hPath : d.pathAt? n = some p) :
    ∃ line, d.dataLineAt? n = some line ∧
      ∃ s, d.stepAt? n = some s ∧ p = (d.parentPathAt n).child s := by
  have hLine : (d.dataLineAt? n).isSome := by
    rw [← isSome_pathAt?, hPath]
    rfl
  obtain ⟨line, hRow⟩ := Option.isSome_iff_exists.mp hLine
  rw [pathAt?_eq_child] at hPath
  obtain ⟨s, hStep, rfl⟩ := Option.map_eq_some_iff.mp hPath
  exact ⟨line, hRow, s, hStep, rfl⟩

/-- A parent is above its child and has a path. -/
theorem exists_pathAt?_of_parentAt? {j : Nat} (hParent : d.parentAt? n = some j) :
    j < n ∧ ∃ p, d.pathAt? j = some p ∧ d.parentPathAt n = p ∧ p ≠ .root := by
  obtain ⟨depth, -, hNearest⟩ := Option.bind_eq_some_iff.mp hParent
  obtain ⟨hLt, own, hOwn, -⟩ := of_nearestAbove?_eq_some hNearest
  obtain ⟨p, hp⟩ := Option.isSome_iff_exists.mp (isSome_pathAt?_of_depthAt? hOwn)
  obtain ⟨-, -, s, -, hChild⟩ := exists_step_of_pathAt? hp
  refine ⟨hLt, p, hp, ?_, hChild ▸ Path.child_ne_root _ s⟩
  rw [parentPathAt, hParent, Option.bind_some, hp, Option.getD_some]

/-- Below different parents the parents' paths differ, if those of all rows
further up do. -/
theorem parentAt?_eq_of_parentPathAt_eq (hLt : m < n)
    (hAbove : ∀ i < n, ∀ j < i, ∀ p, d.pathAt? j = some p → d.pathAt? i ≠ some p)
    (hSame : d.parentPathAt m = d.parentPathAt n) : d.parentAt? m = d.parentAt? n := by
  cases hm : d.parentAt? m with
  | none =>
    have hRoot : d.parentPathAt m = .root := by rw [parentPathAt, hm]; rfl
    cases hn : d.parentAt? n with
    | none => rfl
    | some j =>
      obtain ⟨-, p, -, hPath, hNe⟩ := exists_pathAt?_of_parentAt? hn
      exact absurd (hPath.symm.trans (hSame.symm.trans hRoot)) hNe
  | some i =>
    obtain ⟨hi, p, hp, hPath, hNe⟩ := exists_pathAt?_of_parentAt? hm
    cases hn : d.parentAt? n with
    | none =>
      have hRoot : d.parentPathAt n = .root := by rw [parentPathAt, hn]; rfl
      exact absurd (hPath.symm.trans (hSame.trans hRoot)) hNe
    | some j =>
      obtain ⟨hj, q, hq, hOther, -⟩ := exists_pathAt?_of_parentAt? hn
      obtain rfl : p = q := hPath.symm.trans (hSame.trans hOther)
      rcases Nat.lt_trichotomy i j with hij | rfl | hji
      · exact absurd hq (hAbove j hj i hij p hp)
      · rfl
      · exact absurd hp (hAbove i (by omega) j hji p hq)

/-- Where no two rows collide, a row has another path than all rows above it. By
induction from the top: if the paths agree then the parents do, and the two rows
collide unless they are items of one depth, which are counted. -/
theorem pathAt?_ne_of_lt (hNone : ∀ m n, m ≠ n → ¬ d.Collides m n) (hLt : m < n) {p : Path}
    (hm : d.pathAt? m = some p) : d.pathAt? n ≠ some p := by
  induction n using Nat.strongRecOn generalizing m p with
  | ind n ih =>
    intro hn
    obtain ⟨a, ha, s, hs, hChild⟩ := exists_step_of_pathAt? hm
    obtain ⟨b, hb, t, ht, hOther⟩ := exists_step_of_pathAt? hn
    obtain ⟨hParents, rfl⟩ := Path.child_inj.mp (hChild.symm.trans hOther)
    have hParent := parentAt?_eq_of_parentPathAt_eq hLt (fun i hi j hj q hq => ih i hi hj hq) hParents
    have hFree := hNone m n (Nat.ne_of_lt hLt)
    rcases (stepAt?_eq_iff ha hb).mp (hs.trans ht.symm) with hKeys | ⟨haItem, hbItem, hPosition⟩
    · exact hFree ⟨hParent, a, ha, b, hb, .inl hKeys⟩
    · have hDepth : a.depth d.levelWidth = b.depth d.levelWidth :=
        Decidable.of_not_not fun hDepth =>
          hFree ⟨hParent, a, ha, b, hb, .inr ⟨haItem, hbItem, hDepth⟩⟩
      -- the parent of the two rows is above both, so nothing between them is shallower
      have hBetween : ∀ l < n, m < l → ∀ other ∈ d.depthAt? l, a.depth d.levelWidth ≤ other := by
        intro l hl hml
        rw [hDepth]
        apply le_of_nearestAbove?_lt hl
        intro j hj
        rw [← parentAt?_of_some hb, ← hParent] at hj
        have := (exists_pathAt?_of_parentAt? hj).1
        omega
      have hAscending := itemPosition_lt ha haItem hLt hBetween
      rw [hPosition, hDepth] at hAscending
      omega

/-- **When paths identify lines.** No two lines have the same path, so that the
line of each path is the line it was taken from, exactly if no two rows with the
same parent are entries with the same key or items at different depths. -/
theorem pathsIdentify_iff (d : Document) :
    (d.PathsIdentify ↔ ∀ n p, d.pathAt? n = some p → d.lineOf? p = some n) ∧
    (d.PathsIdentify ↔ ∀ m n, m ≠ n → ¬ d.Collides m n) := by
  refine ⟨pathsIdentify_iff_lineOf?, fun hIdentify m n hNe => hIdentify.not_collides hNe, ?_⟩
  intro hNone m n p hm hn
  rcases Nat.lt_trichotomy m n with hLt | hEq | hLt
  · exact absurd hn (pathAt?_ne_of_lt hNone hLt hm)
  · exact hEq
  · exact absurd hm (pathAt?_ne_of_lt hNone hLt hn)

/-- A dedent to a column in between makes two first items of one parent. -/
example : (ofRows 2 ["a:".toList, "    - x".toList, "  - y".toList]).Collides 1 2 := by decide

end Document

end Marginalia
