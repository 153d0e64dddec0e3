import Marginalia.Document.Comments
import Marginalia.Proofs.Reading
import Mathlib.Tactic.Set

/-!
# Blocks of comments

The comments of a document fall into two kinds of text. An inline comment is a
*trailer* of its row. The other comments stand in *blocks*: a block is a run of
rows without data, as long as possible, and belongs to the row with data right
below it, or to the end of the document. There is a block above each row with
data and one at the end; blocks may be empty.

Blocks are put into another document by a *weave*: among the rows of that
document each row that owns a path, being the first with it, has rows put in
above it, and more rows follow at the end.

## Results

* `Document.blockRows`, `Document.trailersAt` — the two kinds of text, by their places.
* `Document.ownPaths`, `Document.weaveIn`     — rows put in above the owners of paths.
* `Document.paths_weaveIn`                    — rows without data leave the paths of the others alone.
* `Document.weaveIn_owned`, `Document.weaveIn_bottom`, `Document.weaveIn_missing` — where the top block goes.
-/

namespace Marginalia

-- ---------------------------------------------------------------------------
-- Trailers and blocks
-- ---------------------------------------------------------------------------

/-- What the inline comment of a row adds to its data when it is written anew;
nothing if there is none. -/
def Text.trailer (text : Text) : Text :=
  match text.form with
  | .inline _ body => ' ' :: marker :: body
  | _ => []

/-- A run of rows without data, and the path of the row right below it, `none`
for the end of the document. -/
structure Block where
  rows : List Text
  anchor? : Option Path
  deriving DecidableEq, Repr

namespace Block

/-- The block at the top of rows with their paths. -/
def top (rows : List (Text × Option Path)) : Block where
  rows := (rows.takeWhile (·.2.isNone)).map (·.1)
  anchor? := rows.findSome? (·.2)

/-- The blocks below the rows with data, from the top. -/
def below : List (Text × Option Path) → List Block
  | [] => []
  | (_, none) :: rest => below rest
  | (_, some _) :: rest => top rest :: below rest

/-- The rows of the blocks with an anchor, from the lowest block to the highest. -/
def rowsAt (blocks : List Block) (anchor? : Option Path) : List Text :=
  (blocks.filter (·.anchor? = anchor?)).reverse.flatMap (·.rows)

theorem top_nil : top [] = ⟨[], none⟩ := rfl

theorem top_cons_none (text : Text) (rest : List (Text × Option Path)) :
    top ((text, none) :: rest) = ⟨text :: (top rest).rows, (top rest).anchor?⟩ := rfl

theorem top_cons_some (text : Text) (p : Path) (rest : List (Text × Option Path)) :
    top ((text, some p) :: rest) = ⟨[], some p⟩ := rfl

theorem rowsAt_cons_self (rows : List Text) (anchor? : Option Path) (blocks : List Block) :
    rowsAt (⟨rows, anchor?⟩ :: blocks) anchor? = rowsAt blocks anchor? ++ rows := by
  simp [rowsAt]

theorem rowsAt_cons_of_ne {anchor? other? : Option Path} (hNe : other? ≠ anchor?) (rows : List Text)
    (blocks : List Block) : rowsAt (⟨rows, other?⟩ :: blocks) anchor? = rowsAt blocks anchor? := by
  simp [rowsAt, hNe]

theorem mem_of_mem_rowsAt {blocks : List Block} {anchor? : Option Path} {text : Text}
    (hText : text ∈ rowsAt blocks anchor?) : ∃ block ∈ blocks, text ∈ block.rows := by
  obtain ⟨block, hBlock, hMem⟩ := List.mem_flatMap.mp hText
  exact ⟨block, (List.mem_filter.mp (List.mem_reverse.mp hBlock)).1, hMem⟩

/-- The anchors of blocks are paths of rows. -/
theorem exists_of_anchor?_eq_some {rows : List (Text × Option Path)} {p : Path} {block : Block}
    (hBlock : block ∈ top rows :: below rows) (hAnchor : block.anchor? = some p) :
    ∃ row ∈ rows, row.2 = some p := by
  rcases List.mem_cons.mp hBlock with rfl | hBelow
  · exact List.exists_of_findSome?_eq_some hAnchor
  · induction rows with
    | nil => cases hBelow
    | cons row rest ih =>
      have hRest : block ∈ below rest ∨ block = top rest := by
        obtain ⟨text, own?⟩ := row
        cases own? with
        | none => exact .inl hBelow
        | some q => exact (List.mem_cons.mp hBelow).symm
      have hExists : ∃ row ∈ rest, row.2 = some p := by
        rcases hRest with hBelow | rfl
        · exact ih (List.mem_cons_of_mem _ hBelow) hBelow
        · exact List.exists_of_findSome?_eq_some hAnchor
      exact hExists.imp fun other hOther => ⟨List.mem_cons_of_mem row hOther.1, hOther.2⟩

theorem rowsAt_eq_nil {rows : List (Text × Option Path)} {p : Path}
    (hMem : p ∉ rows.filterMap (·.2)) :
    rowsAt (top rows :: below rows) (some p) = [] := by
  rw [List.eq_nil_iff_forall_not_mem]
  intro text hText
  obtain ⟨block, hBlock, -⟩ := List.mem_flatMap.mp hText
  obtain ⟨hBlock, hAnchor⟩ := List.mem_filter.mp (List.mem_reverse.mp hBlock)
  exact hMem (List.mem_filterMap.mpr (exists_of_anchor?_eq_some hBlock (of_decide_eq_true hAnchor)))

end Block

/-- No row has a path that is not among those of the rows. -/
theorem filter_path_eq_nil {rows : List (Text × Option Path)} {p : Path}
    (hMissing : p ∉ rows.filterMap (·.2)) : rows.filter (·.2 = some p) = [] := by
  rw [List.filter_eq_nil_iff]
  intro row hRow hPath
  exact hMissing (List.mem_filterMap.mpr ⟨row, hRow, of_decide_eq_true hPath⟩)

-- ---------------------------------------------------------------------------
-- Weaving
-- ---------------------------------------------------------------------------

section Weave

variable {β : Type}

/-- Each row with the rows above it, if it owns a path that they belong to. -/
def weaveRows (above : Option Path → List β) (items : List (β × Option Path)) : List β :=
  items.flatMap fun item => (if item.2.isSome then above item.2 else []) ++ [item.1]

/-- Rows that may own paths, with other rows put in above the owners and at the
end. -/
def weave (above : Option Path → List β) (items : List (β × Option Path)) : List β :=
  weaveRows above items ++ above none

theorem weaveRows_append (above : Option Path → List β) (upper lower : List (β × Option Path)) :
    weaveRows above (upper ++ lower) = weaveRows above upper ++ weaveRows above lower := by
  simp [weaveRows]

theorem weaveRows_cons_some (above : Option Path → List β) (row : β) (p : Path)
    (rest : List (β × Option Path)) :
    weaveRows above ((row, some p) :: rest) = above (some p) ++ row :: weaveRows above rest := by
  simp [weaveRows]

theorem weaveRows_cons_none (above : Option Path → List β) (row : β)
    (rest : List (β × Option Path)) :
    weaveRows above ((row, none) :: rest) = row :: weaveRows above rest := by
  simp [weaveRows]

theorem weave_cons_some (above : Option Path → List β) (row : β) (p : Path)
    (rest : List (β × Option Path)) :
    weave above ((row, some p) :: rest) = above (some p) ++ row :: weave above rest := by
  rw [weave, weaveRows_cons_some, List.append_assoc, List.cons_append, weave]

theorem weave_cons_none (above : Option Path → List β) (row : β) (rest : List (β × Option Path)) :
    weave above ((row, none) :: rest) = row :: weave above rest := by
  rw [weave, weaveRows_cons_none, List.cons_append, weave]

theorem mem_weaveRows {above : Option Path → List β} {items : List (β × Option Path)} {row : β}
    (hRow : row ∈ weaveRows above items) : (∃ a, row ∈ above a) ∨ ∃ item ∈ items, item.1 = row := by
  obtain ⟨item, hItem, hMem⟩ := List.mem_flatMap.mp hRow
  rcases List.mem_append.mp hMem with hAbove | hOwn
  · split at hAbove
    · exact .inl ⟨item.2, hAbove⟩
    · cases hAbove
  · exact .inr ⟨item, hItem, (List.mem_singleton.mp hOwn).symm⟩

/-- Only the rows above the owned paths matter. -/
theorem weaveRows_congr {above other : Option Path → List β} {items : List (β × Option Path)}
    (hSame : ∀ item ∈ items, ∀ p, item.2 = some p → above (some p) = other (some p)) :
    weaveRows above items = weaveRows other items := by
  induction items with
  | nil => rfl
  | cons item rest ih =>
    have hRest := ih fun other hOther => hSame other (List.mem_cons_of_mem item hOther)
    obtain ⟨row, own?⟩ := item
    cases own? with
    | none => rw [weaveRows_cons_none, weaveRows_cons_none, hRest]
    | some p =>
      rw [weaveRows_cons_some, weaveRows_cons_some, hRest, hSame _ List.mem_cons_self p rfl]

theorem weave_of_forall_nil {above : Option Path → List β} (hNil : ∀ a, above a = [])
    (items : List (β × Option Path)) : weave above items = items.map (·.1) := by
  have hRows : weaveRows above items = items.map (·.1) := by
    induction items with
    | nil => rfl
    | cons item rest ih =>
      rw [List.map_cons, ← ih, weaveRows, List.flatMap_cons]
      simp [hNil, weaveRows]
  rw [weave, hRows, hNil, List.append_nil]

theorem map_weaveRows {γ : Type} (f : β → γ) (above : Option Path → List β)
    (items : List (β × Option Path)) :
    (weaveRows above items).map f
      = weaveRows (fun a => (above a).map f) (items.map fun item => (f item.1, item.2)) := by
  induction items with
  | nil => rfl
  | cons item rest ih =>
    obtain ⟨row, own?⟩ := item
    cases own? with
    | none => rw [weaveRows_cons_none, List.map_cons, ih, List.map_cons, weaveRows_cons_none]
    | some p =>
      rw [weaveRows_cons_some, List.map_append, List.map_cons, ih, List.map_cons,
        weaveRows_cons_some]

theorem map_weave {γ : Type} (f : β → γ) (above : Option Path → List β)
    (items : List (β × Option Path)) :
    (weave above items).map f
      = weave (fun a => (above a).map f) (items.map fun item => (f item.1, item.2)) := by
  rw [weave, List.map_append, map_weaveRows, weave]

end Weave

/-- Only the rows above its own anchor tell what stands in a block. -/
theorem weaveRows_rowsAt_cons {p : Path} {items : List (Text × Option Path)}
    (hItems : ∀ item ∈ items, item.2 ≠ some p) (rows : List Text) (blocks : List Block) :
    weaveRows (Block.rowsAt (⟨rows, some p⟩ :: blocks)) items
      = weaveRows (Block.rowsAt blocks) items := by
  apply weaveRows_congr
  intro item hItem q hq
  exact Block.rowsAt_cons_of_ne (fun h => hItems item hItem (hq.trans h.symm)) rows blocks

theorem weave_rowsAt_cons {p : Path} {items : List (Text × Option Path)}
    (hItems : ∀ item ∈ items, item.2 ≠ some p) (rows : List Text) (blocks : List Block) :
    weave (Block.rowsAt (⟨rows, some p⟩ :: blocks)) items = weave (Block.rowsAt blocks) items := by
  rw [weave, weaveRows_rowsAt_cons hItems, Block.rowsAt_cons_of_ne (by simp), weave]

/-- The blocks of some rows woven into those of them that have data give all the
rows again, if no path occurs twice. Rows may change on the way; `pending` is
what the top block has already above the first row. -/
theorem weave_blocks (f : Text → Text) {items : List (Text × Option Path)}
    (hDistinct : (items.filterMap (·.2)).Nodup)
    (hSame : ∀ item ∈ items, item.2 = none → f item.1 = item.1)
    (pending : List Text) :
    weave (Block.rowsAt
          (⟨pending ++ (Block.top items).rows, (Block.top items).anchor?⟩ :: Block.below items))
        (items.filterMap fun item => item.2.map fun p => (f item.1, some p))
      = pending ++ items.map fun item => f item.1 := by
  induction items generalizing pending with
  | nil => simp [weave, weaveRows, Block.top_nil, Block.below, Block.rowsAt]
  | cons item rest ih =>
    obtain ⟨text, p?⟩ := item
    have hRest : ∀ item ∈ rest, item.2 = none → f item.1 = item.1 :=
      fun other hOther => hSame other (List.mem_cons_of_mem _ hOther)
    cases p? with
    | none =>
      have h := ih hDistinct hRest (pending ++ [text])
      rw [List.append_assoc, List.singleton_append] at h
      rw [Block.top_cons_none, Block.below, List.filterMap_cons_none rfl, h, List.map_cons,
        hSame (text, none) List.mem_cons_self rfl, List.append_assoc, List.singleton_append]
    | some p =>
      obtain ⟨hNew, hDistinct⟩ := List.nodup_cons.mp hDistinct
      have h := ih hDistinct hRest []
      have hItems : ∀ item ∈ rest.filterMap (fun item => item.2.map fun p => (f item.1, some p)),
          item.2 ≠ some p := by
        intro item hItem hEq
        obtain ⟨source, hSource, hMap⟩ := List.mem_filterMap.mp hItem
        obtain ⟨q, hq, rfl⟩ := Option.map_eq_some_iff.mp hMap
        exact hNew (List.mem_filterMap.mpr ⟨source, hSource, hq.trans hEq⟩)
      show weave _ ((f text, some p) ::
        rest.filterMap fun item => item.2.map fun p => (f item.1, some p)) = _
      rw [Block.top_cons_some, Block.below, weave_cons_some, Block.rowsAt_cons_self,
        Block.rowsAt_eq_nil hNew, weave_rowsAt_cons hItems]
      simpa using h

namespace Outline

theorem pathsBelow_append_of_none (above : List OutlineRow) {rows : List (Option OutlineRow)}
    (hNone : ∀ row? ∈ rows, row? = none) (rest : List (Option OutlineRow)) :
    pathsBelow above (rows ++ rest) = rows.map (fun _ => none) ++ pathsBelow above rest := by
  induction rows with
  | nil => rfl
  | cons row? more ih =>
    have hMore := ih fun other hOther => hNone other (List.mem_cons_of_mem row? hOther)
    rw [hNone row? List.mem_cons_self, List.cons_append, pathsBelow, hMore, List.map_cons,
      List.cons_append]

/-- Rows without data that are woven in leave the paths of the other rows alone.
By induction on those: what is woven in above a row does not join the rows above
it. -/
theorem pathsBelow_weave (above : List OutlineRow) {woven : Option Path → List (Option OutlineRow)}
    (hNone : ∀ a, ∀ row? ∈ woven a, row? = none) (items : List (Option OutlineRow × Option Path)) :
    pathsBelow above (weave woven items)
      = weave (fun a => (woven a).map fun _ => none)
          ((pathsBelow above (items.map (·.1))).zip (items.map (·.2))) := by
  induction items generalizing above with
  | nil =>
    have h := pathsBelow_append_of_none above (hNone none) []
    rw [List.append_nil] at h
    rw [show weave woven [] = woven none from rfl, h, pathsBelow, List.append_nil]
    rfl
  | cons item rest ih =>
    obtain ⟨row?, own?⟩ := item
    have hRest := ih (row?.toList ++ above)
    cases own? with
    | none =>
      rw [weave_cons_none, pathsBelow_cons, hRest, List.map_cons, pathsBelow_cons, List.map_cons,
        List.zip_cons_cons, weave_cons_none]
    | some p =>
      -- the woven rows are passed over, and the row below them finds the rows
      -- above it as they were
      rw [weave_cons_some, pathsBelow_append_of_none above (hNone (some p)), pathsBelow_cons, hRest,
        List.map_cons, pathsBelow_cons, List.map_cons, List.zip_cons_cons, weave_cons_some]

end Outline

namespace Document

-- ---------------------------------------------------------------------------
-- The texts of a document, and the owners of its paths
-- ---------------------------------------------------------------------------

/-- The blocks of a document, from the top. -/
def blocks (d : Document) : List Block :=
  Block.top d.pathed :: Block.below d.pathed

/-- The rows of the blocks above the rows with a path, or at the end, from the
lowest block to the highest. -/
def blockRows (d : Document) (anchor? : Option Path) : List Text :=
  Block.rowsAt d.blocks anchor?

/-- The trailers of the rows with a path, in the order of the rows. -/
def trailersAt (d : Document) (p : Path) : Text :=
  (d.pathed.filter (·.2 = some p)).flatMap fun row => row.1.trailer

/-- For each row the path that it is the first row with, if there is one. -/
def ownPaths (d : Document) : List (Option Path) :=
  d.paths.mapIdx fun n p? => p?.filter fun p => d.lineOf? p = some n

theorem length_ownPaths (d : Document) : d.ownPaths.length = d.rows.length := by
  rw [ownPaths, List.length_mapIdx, length_paths]

theorem getElem?_ownPaths_iff {d : Document} {n : Nat} {p : Path} :
    d.ownPaths[n]? = some (some p) ↔ d.lineOf? p = some n := by
  rw [ownPaths, List.getElem?_mapIdx, Option.map_eq_some_iff]
  constructor
  · rintro ⟨p?, -, hOwn⟩
    simpa using (Option.filter_eq_some_iff.mp hOwn).2
  · intro hLine
    refine ⟨some p, pathAt?_eq_some_iff.mp (lineOf?_eq_some_iff.mp hLine).1, ?_⟩
    simp [hLine]

/-- The rows with their paths, and for each row the path that it owns. -/
def owned (d : Document) : List ((Text × Option Path) × Option Path) :=
  d.pathed.zip d.ownPaths

theorem map_owned_row (d : Document) :
    d.owned.map (fun item => (item.1.1, item.2)) = d.rows.zip d.ownPaths := by
  rw [← map_fst_pathed, List.zip_map_left]
  rfl

theorem map_owned_path (d : Document) :
    d.owned.map (fun item => (item.1.2, item.2)) = d.paths.zip d.ownPaths := by
  rw [← map_snd_pathed, List.zip_map_left]
  rfl

/-- The document with rows woven in above the owners of its paths. -/
def weaveIn (d : Document) (above : Option Path → List Text) : Document :=
  { d with rows := weave above (d.rows.zip d.ownPaths) }

theorem paths_weaveIn {d : Document} {above : Option Path → List Text}
    (hAbove : ∀ a, ∀ text ∈ above a, OutlineRow.ofText? d.levelWidth text = none) :
    (d.weaveIn above).paths
      = weave (fun a => (above a).map fun _ => none) (d.paths.zip d.ownPaths) := by
  have hNone : ∀ a, ∀ row? ∈ (above a).map (OutlineRow.ofText? d.levelWidth), row? = none := by
    intro a row? hRow
    obtain ⟨text, hText, rfl⟩ := List.mem_map.mp hRow
    exact hAbove a text hText
  have hItems : (d.rows.zip d.ownPaths).map
        (fun item => (OutlineRow.ofText? d.levelWidth item.1, item.2))
      = d.outline.zip d.ownPaths := by
    rw [outline, List.zip_map_left]
    rfl
  have hLength : d.outline.length = d.ownPaths.length := by
    rw [outline, List.length_map, length_ownPaths]
  rw [paths, outline, weaveIn, map_weave, hItems, Outline.paths, Outline.pathsBelow_weave [] hNone,
    List.map_fst_zip (Nat.le_of_eq hLength), List.map_snd_zip (Nat.le_of_eq hLength.symm)]
  simp only [List.map_map, Function.comp_def]
  rfl

/-- The rows with their paths after rows without data are woven in. -/
theorem pathed_weaveIn {d : Document} {above : Option Path → List Text}
    (hAbove : ∀ a, ∀ text ∈ above a, OutlineRow.ofText? d.levelWidth text = none) :
    (d.weaveIn above).pathed = weave (fun a => (above a).map fun text => (text, none)) d.owned := by
  set woven := weave (fun a => (above a).map fun text => (text, (none : Option Path))) d.owned
    with hWoven
  have hRows : (d.weaveIn above).rows = woven.map (·.1) := by
    rw [hWoven, map_weave, map_owned_row, weaveIn]
    simp only [List.map_map, Function.comp_def, List.map_id']
  have hPaths : (d.weaveIn above).paths = woven.map (·.2) := by
    rw [hWoven, map_weave, map_owned_path, paths_weaveIn hAbove]
    simp only [List.map_map, Function.comp_def]
  rw [pathed, hRows, hPaths, List.zip_map']
  simp

-- ---------------------------------------------------------------------------
-- Where the top block goes
-- ---------------------------------------------------------------------------

theorem getElem?_owned_iff {d : Document} {n : Nat} {text : Text} {p? own? : Option Path} :
    d.owned[n]? = some ((text, p?), own?)
      ↔ d.rows[n]? = some text ∧ d.paths[n]? = some p? ∧ d.ownPaths[n]? = some own? := by
  rw [owned, List.getElem?_zip_eq_some, pathed, List.getElem?_zip_eq_some, and_assoc]

/-- The owner of a path is the only one, and no row above it has the path. -/
theorem exists_owner {d : Document} {p : Path} {n : Nat} (hLine : d.lineOf? p = some n) :
    ∃ upper text lower, d.owned = upper ++ ((text, some p), some p) :: lower ∧
      (∀ item ∈ upper, item.1.2 ≠ some p) ∧ (∀ item ∈ upper ++ lower, item.2 ≠ some p) := by
  obtain ⟨hPath, hFirst⟩ := lineOf?_eq_some_iff.mp hLine
  have hLt : n < d.rows.length := lineOf?_lt hLine
  have hOwner : d.owned[n]? = some ((d.rows[n], some p), some p) :=
    getElem?_owned_iff.mpr ⟨List.getElem?_eq_getElem hLt, pathAt?_eq_some_iff.mp hPath,
      getElem?_ownPaths_iff.mpr hLine⟩
  obtain ⟨hLtOwned, hItem⟩ := List.getElem?_eq_some_iff.mp hOwner
  -- a path has one owner, since it has one first row
  have hOnly : ∀ k, k ≠ n → ∀ item, d.owned[k]? = some item → item.2 ≠ some p := by
    rintro k hk ⟨⟨text, p?⟩, own?⟩ hAt rfl
    have hOther := getElem?_ownPaths_iff.mp (getElem?_owned_iff.mp hAt).2.2
    exact hk (Option.some.inj (hOther.symm.trans hLine))
  refine ⟨d.owned.take n, d.rows[n], d.owned.drop (n + 1), ?_, ?_, ?_⟩
  · rw [← hItem, ← List.drop_eq_getElem_cons hLtOwned, List.take_append_drop]
  · rintro ⟨⟨text, p?⟩, own?⟩ hMem rfl
    obtain ⟨k, hk⟩ := List.mem_iff_getElem?.mp hMem
    rw [List.getElem?_take] at hk
    split at hk
    · next hkn => exact hFirst k hkn (pathAt?_eq_some_iff.mpr (getElem?_owned_iff.mp hk).2.1)
    · cases hk
  · intro item hMem
    rcases List.mem_append.mp hMem with hUpper | hLower
    · obtain ⟨k, hk⟩ := List.mem_iff_getElem?.mp hUpper
      rw [List.getElem?_take] at hk
      split at hk
      · next hkn => exact hOnly k (Nat.ne_of_lt hkn) item hk
      · cases hk
    · obtain ⟨k, hk⟩ := List.mem_iff_getElem?.mp hLower
      rw [List.getElem?_drop] at hk
      exact hOnly (n + 1 + k) (by omega) item hk

theorem findIdx?_append_cons {α : Type} {f : α → Bool} {upper : List α}
    (hUpper : ∀ x ∈ upper, f x = false)
    {x : α} (hx : f x = true) (lower : List α) :
    (upper ++ x :: lower).findIdx? f = some upper.length := by
  induction upper with
  | nil => simp [List.findIdx?_cons, hx]
  | cons y rest ih =>
    have hRest := ih fun z hz => hUpper z (List.mem_cons_of_mem y hz)
    rw [List.cons_append, List.findIdx?_cons, hUpper y List.mem_cons_self, hRest]
    rfl

/-- The first row with a path stays the first, below the rows that are woven in
above it and its predecessors. -/
theorem lineOf?_weaveIn {d : Document} {p : Path}
    {front back : List ((Text × Option Path) × Option Path)}
    {text : Text} (hOwned : d.owned = front ++ ((text, some p), some p) :: back)
    (hFront : ∀ item ∈ front, item.1.2 ≠ some p) {above : Option Path → List Text}
    (hAbove : ∀ a, ∀ text ∈ above a, OutlineRow.ofText? d.levelWidth text = none) :
    (d.weaveIn above).lineOf? p
      = some (weaveRows above (front.map fun item => (item.1.1, item.2))
          ++ above (some p)).length := by
  set upper := weaveRows (fun a => (above a).map fun text => (text, (none : Option Path))) front
    ++ (above (some p)).map fun text => (text, none) with hUpper
  have hPathed : (d.weaveIn above).pathed = upper ++ (text, some p) ::
      (weaveRows (fun a => (above a).map fun text => (text, none)) back
        ++ (above none).map fun text => (text, none)) := by
    rw [pathed_weaveIn hAbove, hOwned, weave, weaveRows_append, weaveRows_cons_some, hUpper]
    simp only [List.append_assoc, List.cons_append]
  -- what is woven in has no path, and the rows above the owner have other ones
  have hNot : ∀ row ∈ upper, (row.2 == some p) = false := by
    intro row hRow
    rw [beq_eq_false_iff_ne]
    rcases List.mem_append.mp hRow with hRow | hRow
    · rcases mem_weaveRows hRow with ⟨a, hMem⟩ | ⟨item, hItem, rfl⟩
      · obtain ⟨_, -, rfl⟩ := List.mem_map.mp hMem
        simp
      · exact hFront item hItem
    · obtain ⟨_, -, rfl⟩ := List.mem_map.mp hRow
      simp
  have hLength : upper.length
      = (weaveRows above (front.map fun item => (item.1.1, item.2)) ++ above (some p)).length := by
    rw [← List.length_map (·.1), hUpper, List.map_append, map_weaveRows]
    simp only [List.map_map, Function.comp_def, List.map_id']
  rw [lineOf?, ← map_snd_pathed, hPathed, List.idxOf?, List.findIdx?_map, ← hLength]
  exact findIdx?_append_cons hNot (by simp) _

/-- A block above the owner of a path: the rows above the block's place are the
same for every block, and so are those below. The owner is found right below the
place as long as the block is empty. -/
theorem weaveIn_owned {d : Document} {p : Path} {n : Nat} (hLine : d.lineOf? p = some n)
    {blocks : List Block}
    (hBlocks : ∀ block ∈ blocks, ∀ text ∈ block.rows, OutlineRow.ofText? d.levelWidth text = none) :
    ∃ upper lower : List Text,
      (∀ rows, (d.weaveIn (Block.rowsAt (⟨rows, some p⟩ :: blocks))).rows
        = upper ++ rows ++ lower) ∧
      (d.weaveIn (Block.rowsAt (⟨[], some p⟩ :: blocks))).lineOf? p = some upper.length := by
  obtain ⟨front, text, back, hOwned, hFront, hOnly⟩ := exists_owner hLine
  -- only the owner itself has this block above it, so the rows on both sides do
  -- not depend on the block
  have hUpper : ∀ item ∈ front.map (fun item => (item.1.1, item.2)), item.2 ≠ some p := by
    intro item hItem
    obtain ⟨source, hSource, rfl⟩ := List.mem_map.mp hItem
    exact hOnly source (List.mem_append_left _ hSource)
  have hLower : ∀ item ∈ back.map (fun item => (item.1.1, item.2)), item.2 ≠ some p := by
    intro item hItem
    obtain ⟨source, hSource, rfl⟩ := List.mem_map.mp hItem
    exact hOnly source (List.mem_append_right _ hSource)
  refine ⟨weaveRows (Block.rowsAt blocks) (front.map fun item => (item.1.1, item.2))
      ++ Block.rowsAt blocks (some p),
    text :: weaveRows (Block.rowsAt blocks) (back.map fun item => (item.1.1, item.2))
      ++ Block.rowsAt blocks none, fun rows => ?_, ?_⟩
  · rw [weaveIn, ← map_owned_row, hOwned, weave, List.map_append, weaveRows_append, List.map_cons,
      weaveRows_cons_some, Block.rowsAt_cons_self, Block.rowsAt_cons_of_ne (by simp),
      weaveRows_rowsAt_cons hUpper, weaveRows_rowsAt_cons hLower]
    simp only [List.append_assoc, List.cons_append]
  · have hAbove : ∀ a, ∀ text ∈ Block.rowsAt (⟨[], some p⟩ :: blocks) a,
        OutlineRow.ofText? d.levelWidth text = none := by
      intro a text hText
      obtain ⟨block, hBlock, hMem⟩ := Block.mem_of_mem_rowsAt hText
      rcases List.mem_cons.mp hBlock with rfl | hBlock
      · cases hMem
      · exact hBlocks block hBlock text hMem
    rw [lineOf?_weaveIn hOwned hFront hAbove, weaveRows_rowsAt_cons hUpper, Block.rowsAt_cons_self,
      List.append_nil]

/-- The block at the end of the document has all other rows above it. -/
theorem weaveIn_bottom (d : Document) (blocks : List Block) (rows : List Text) :
    (d.weaveIn (Block.rowsAt (⟨rows, none⟩ :: blocks))).rows
      = (d.weaveIn (Block.rowsAt blocks)).rows ++ rows := by
  have hRows : weaveRows (Block.rowsAt (⟨rows, none⟩ :: blocks)) (d.rows.zip d.ownPaths)
      = weaveRows (Block.rowsAt blocks) (d.rows.zip d.ownPaths) :=
    weaveRows_congr fun item _ p hp => Block.rowsAt_cons_of_ne (by simp) rows blocks
  rw [weaveIn, weave, hRows, Block.rowsAt_cons_self, weaveIn, weave, List.append_assoc]

/-- A block for a path that no row has goes nowhere. -/
theorem weaveIn_missing {d : Document} {p : Path} (hLine : d.lineOf? p = none) (blocks : List Block)
    (rows : List Text) :
    d.weaveIn (Block.rowsAt (⟨rows, some p⟩ :: blocks)) = d.weaveIn (Block.rowsAt blocks) := by
  have hItems : ∀ item ∈ d.rows.zip d.ownPaths, item.2 ≠ some p := by
    rintro ⟨text, own?⟩ hItem rfl
    obtain ⟨n, hn⟩ := List.mem_iff_getElem?.mp hItem
    have hOwn := getElem?_ownPaths_iff.mp (List.getElem?_zip_eq_some.mp hn).2
    rw [hLine] at hOwn
    cases hOwn
  rw [weaveIn, weave_rowsAt_cons hItems, weaveIn]

/-- A path that no row has is not found among woven rows either. -/
theorem lineOf?_weaveIn_missing {d : Document} {p : Path} (hLine : d.lineOf? p = none)
    {above : Option Path → List Text}
    (hAbove : ∀ a, ∀ text ∈ above a, OutlineRow.ofText? d.levelWidth text = none) :
    (d.weaveIn above).lineOf? p = none := by
  rw [lineOf?_eq_none_iff] at hLine ⊢
  rw [paths_weaveIn hAbove]
  intro hMem
  rcases List.mem_append.mp hMem with hMem | hMem
  · rcases mem_weaveRows hMem with ⟨a, hMem⟩ | ⟨item, hItem, hEq⟩
    · obtain ⟨_, -, hEq⟩ := List.mem_map.mp hMem
      cases hEq
    · exact hLine (hEq ▸ (List.of_mem_zip hItem).1)
  · obtain ⟨_, -, hEq⟩ := List.mem_map.mp hMem
    cases hEq

end Document

end Marginalia
