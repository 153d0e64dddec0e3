import Marginalia.Proofs.Resting

/-!
# The comments of an annotated document

A document without comments of its own, once it is annotated, has the comments
of the source again: each of its blocks is one that was woven in, and each
trailer is one that was written. Only what the target has no place for is gone.

So a document that was generated anew and annotated can stand in for the source
when the next version is annotated, as long as it has the paths that the next
version needs.

## Results

* `Block.blocks_weave`           — the blocks of woven rows are what was woven in.
* `Document.filterMap_owned`     — among the rows with a path there is one owner.
* `Document.blockRows_annotate`, `Document.trailersAt_annotate` — the comments by their places.
* `annotate_regenerated`         — annotating by way of another document.
-/

namespace Marginalia

-- ---------------------------------------------------------------------------
-- Woven rows, taken apart again
-- ---------------------------------------------------------------------------

namespace Block

/-- Rows without data at the top join the top block. -/
theorem top_append_of_none (rows : List Text) (rest : List (Text × Option Path)) :
    top (rows.map (fun text => (text, none)) ++ rest)
      = ⟨rows ++ (top rest).rows, (top rest).anchor?⟩ := by
  induction rows with
  | nil => rfl
  | cons text more ih =>
    rw [List.map_cons, List.cons_append, top_cons_none, ih]
    rfl

theorem below_append_of_none (rows : List Text) (rest : List (Text × Option Path)) :
    below (rows.map (fun text => (text, none)) ++ rest) = below rest := by
  induction rows with
  | nil => rfl
  | cons text more ih =>
    rw [List.map_cons, List.cons_append, below, ih]

/-- Rows woven in among rows with data are blocks again: above each row what was
woven in there, and at the end the rest. By induction on the rows with data. -/
theorem blocks_weave (above : Option Path → List Text)
    {items : List ((Text × Option Path) × Option Path)}
    (hData : ∀ item ∈ items, item.1.2.isSome) :
    top (weave (fun a => (above a).map fun text => (text, none)) items)
        :: below (weave (fun a => (above a).map fun text => (text, none)) items)
      = items.map (fun item => ⟨item.2.elim [] fun p => above (some p), item.1.2⟩)
        ++ [⟨above none, none⟩] := by
  induction items with
  | nil =>
    have hTop := top_append_of_none (above none) []
    have hBelow := below_append_of_none (above none) []
    rw [List.append_nil] at hTop hBelow
    show top ((above none).map _) :: below ((above none).map _) = _
    rw [hTop, hBelow, top_nil, List.append_nil]
    rfl
  | cons item rest ih =>
    have hRest := ih fun other hOther => hData other (List.mem_cons_of_mem item hOther)
    have hHead := hData item List.mem_cons_self
    obtain ⟨⟨text, p?⟩, own?⟩ := item
    obtain ⟨p, rfl⟩ := Option.isSome_iff_exists.mp hHead
    rw [List.map_cons, List.cons_append, ← hRest]
    cases own? with
    | none =>
      rw [weave_cons_none, top_cons_some, below]
      rfl
    | some q =>
      rw [weave_cons_some, top_append_of_none, below_append_of_none, top_cons_some, below,
        List.append_nil]
      rfl

end Block

/-- What was woven in above the owners of a path is found at it, the lowest first. -/
theorem Block.rowsAt_weave (above : Option Path → List Text)
    {items : List ((Text × Option Path) × Option Path)}
    (hData : ∀ item ∈ items, item.1.2.isSome) (p : Path) :
    rowsAt (items.map (fun item => ⟨item.2.elim [] fun q => above (some q), item.1.2⟩)
        ++ [⟨above none, none⟩]) (some p)
      = ((items.filter (·.1.2 = some p)).filterMap (·.2)).reverse.flatMap fun q => above (some q) := by
  induction items with
  | nil => rw [List.map_nil, List.nil_append, rowsAt_cons_of_ne (by simp)]; rfl
  | cons item rest ih =>
    have hRest := ih fun other hOther => hData other (List.mem_cons_of_mem item hOther)
    obtain ⟨⟨text, p?⟩, own?⟩ := item
    rw [List.map_cons, List.cons_append]
    by_cases hPath : p? = some p
    · rw [hPath, rowsAt_cons_self, hRest, List.filter_cons_of_pos (by simp)]
      cases own? <;> simp
    · rw [rowsAt_cons_of_ne hPath, hRest, List.filter_cons_of_neg (by simpa using hPath)]

/-- What is not among the rows woven in is found among the others. -/
theorem filter_weave {β : Type} {above : Option Path → List β} {f : β → Bool}
    (hAbove : ∀ a, ∀ row ∈ above a, f row = false) (items : List (β × Option Path)) :
    (weave above items).filter f = (items.map (·.1)).filter f := by
  have hNil : ∀ a, (above a).filter f = [] := by
    intro a
    rw [List.filter_eq_nil_iff]
    intro row hRow
    rw [hAbove a row hRow]
    exact Bool.false_ne_true
  induction items with
  | nil => exact hNil none
  | cons item rest ih =>
    obtain ⟨row, own?⟩ := item
    cases own? with
    | none => rw [weave_cons_none, List.map_cons, List.filter_cons, List.filter_cons, ih]
    | some p =>
      rw [weave_cons_some, List.filter_append, hNil, List.nil_append, List.map_cons,
        List.filter_cons, List.filter_cons, ih]

namespace Document

-- ---------------------------------------------------------------------------
-- One owner for each path
-- ---------------------------------------------------------------------------

theorem path_of_mem_owned {d : Document} {item : (Text × Option Path) × Option Path}
    (hItem : item ∈ d.owned) {p : Path} (hOwn : item.2 = some p) : item.1.2 = some p := by
  obtain ⟨⟨text, p?⟩, own?⟩ := item
  obtain rfl : own? = some p := hOwn
  obtain ⟨n, hn⟩ := List.mem_iff_getElem?.mp hItem
  obtain ⟨-, hPath, hOwn⟩ := getElem?_owned_iff.mp hn
  have hFirst := (lineOf?_eq_some_iff.mp (getElem?_ownPaths_iff.mp hOwn)).1
  exact Option.some.inj (hPath.symm.trans (pathAt?_eq_some_iff.mp hFirst))

/-- Among the rows with a path there is one that owns it. -/
theorem filterMap_owned (d : Document) (p : Path) :
    (d.owned.filter (·.1.2 = some p)).filterMap (·.2)
      = if d.lineOf? p = none then [] else [p] := by
  cases hLine : d.lineOf? p with
  | none =>
    have hNone : d.owned.filter (·.1.2 = some p) = [] := by
      rw [List.filter_eq_nil_iff]
      intro item hItem hPath
      have hMem : item.1.2 ∈ d.paths := (List.of_mem_zip (List.of_mem_zip hItem).1).2
      rw [of_decide_eq_true hPath] at hMem
      exact lineOf?_eq_none_iff.mp hLine hMem
    rw [hNone, if_pos rfl]
    rfl
  | some n =>
    obtain ⟨upper, text, lower, hOwned, hUpper, hOnly⟩ := exists_owner hLine
    have hNone : upper.filter (·.1.2 = some p) = [] := by
      rw [List.filter_eq_nil_iff]
      intro item hItem
      simpa using hUpper item hItem
    -- a row below with the same path owns none
    have hLower : (lower.filter (·.1.2 = some p)).filterMap (·.2) = [] := by
      rw [List.filterMap_eq_nil_iff]
      intro item hItem
      obtain ⟨hItem, hPath⟩ := List.mem_filter.mp hItem
      by_contra hOwn
      obtain ⟨q, hOwn⟩ := Option.ne_none_iff_exists'.mp hOwn
      have hMem : item ∈ d.owned := by
        rw [hOwned]
        exact List.mem_append_right _ (List.mem_cons_of_mem _ hItem)
      have hSame := (path_of_mem_owned hMem hOwn).symm.trans (of_decide_eq_true hPath)
      exact hOnly item (List.mem_append_right _ hItem) (hOwn.trans hSame)
    rw [hOwned, List.filter_append, hNone, List.nil_append, List.filter_cons_of_pos (by simp)]
    show p :: (lower.filter (·.1.2 = some p)).filterMap (·.2) = [p]
    rw [hLower]

-- ---------------------------------------------------------------------------
-- The annotated document
-- ---------------------------------------------------------------------------

/-- The document with the inline comments of another one written on its rows. -/
def withTrailers (target source : Document) : Document :=
  target.extendBy target.carrierFor source.comments.inlineEntries

theorem mem_owned_withTrailers {source target : Document}
    (hOutline : (target.withTrailers source).outline = target.outline)
    {item : (Text × Option Path) × Option Path} (hItem : item ∈ (target.withTrailers source).owned) :
    ∃ text ∈ target.rows, item.1.1 = text ++ item.2.elim [] source.trailersAt := by
  obtain ⟨⟨text, p?⟩, own?⟩ := item
  obtain ⟨n, hn⟩ := List.mem_iff_getElem?.mp hItem
  obtain ⟨hText, -, hOwn⟩ := getElem?_owned_iff.mp hn
  rw [ownPaths_congr hOutline] at hOwn
  rw [withTrailers, extendBy, List.getElem?_mapIdx] at hText
  obtain ⟨bare, hBare, rfl⟩ := Option.map_eq_some_iff.mp hText
  refine ⟨bare, List.mem_of_getElem? hBare, ?_⟩
  rw [trailersOn_inlineEntries, hOwn]
  rfl

/-- The trailers at a path are nothing or an inline comment. -/
theorem trailersAt_eq (d : Document) (p : Path) :
    d.trailersAt p = [] ∨ ∃ body, d.trailersAt p = ' ' :: marker :: body := by
  rw [trailersAt]
  induction d.pathed.filter (·.2 = some p) with
  | nil => exact .inl rfl
  | cons row rest ih =>
    rw [List.flatMap_cons, Text.trailer]
    split
    · exact .inr ⟨_, rfl⟩
    · exact ih

end Document

/-- What is written on a row of data is the trailer of the row then. -/
theorem Text.trailer_append_of_data {text : Text} (hForm : text.form = .data) {more : Text}
    (hMore : more = [] ∨ ∃ body, more = ' ' :: marker :: body) : (text ++ more).trailer = more := by
  rcases hMore with rfl | ⟨body, rfl⟩
  · rw [List.append_nil, trailer, hForm]
  · rw [trailer, form_extend_of_data hForm]

namespace Document

/-- The rows of the blocks have no part in any outline. -/
theorem ofText?_of_mem_blockRows (d : Document) (levelWidth : Nat) {a : Option Path} {text : Text}
    (hText : text ∈ d.blockRows a) : OutlineRow.ofText? levelWidth text = none := by
  obtain ⟨block, hBlock, hMem⟩ := Block.mem_of_mem_rowsAt hText
  refine Progress.ofText?_of_mem_block (fun row hRow hPath => ?_) block hBlock text hMem
  have hSome := isSome_of_mem_pathed hRow
  rw [hPath, ← OutlineRow.isSome_ofText? levelWidth] at hSome
  exact Option.not_isSome_iff_eq_none.mp (Bool.eq_false_iff.mp hSome.symm)

section Annotated

variable {target : Document} (hBare : ∀ text ∈ target.rows, text.form = .data ∧ text.Tidy)

include hBare

theorem bears_of_bare (entries : List (Nat × Comment)) :
    Progress.Bears { document := target } entries :=
  bears_of_tidy (fun text hText _ => (hBare text hText).2) entries

theorem outline_withTrailers (source : Document) :
    (target.withTrailers source).outline = target.outline := by
  have hBears := bears_of_bare hBare source.comments.inlineEntries
  have hOutline := outline_writeAll hBears
  rw [Progress.writeAll, Progress.foldl_write (Progress.carries_of_bears hBears)] at hOutline
  exact hOutline

variable {source : Document}

/-- The rows of the annotated document with their paths: those of the target
with trailers, and the blocks woven in. -/
theorem pathed_annotate :
    (target.annotate source.comments).document.pathed
      = weave (fun a => (source.blockRows a).map fun text => (text, none))
          (target.withTrailers source).owned := by
  have hBears := bears_of_bare hBare source.comments.inlineEntries
  have hDocument : (target.annotate source.comments).document
      = (target.withTrailers source).weaveIn source.blockRows :=
    (document_complete hBears).trans (weaveIn_extendBy (outline_withTrailers hBare source)).symm
  rw [hDocument]
  exact pathed_weaveIn fun a text hText => source.ofText?_of_mem_blockRows _ hText

/-- All rows of the target have data, with trailers or without. -/
theorem isSome_of_mem_owned : ∀ item ∈ (target.withTrailers source).owned, item.1.2.isSome := by
  intro item hItem
  have hPath : item.1.2 ∈ target.paths := by
    rw [← paths_congr (outline_withTrailers hBare source)]
    exact (List.of_mem_zip (List.of_mem_zip hItem).1).2
  rw [← map_snd_pathed] at hPath
  obtain ⟨row, hRow, hEq⟩ := List.mem_map.mp hPath
  rw [← hEq, isSome_of_mem_pathed hRow, Row.hasData, Row.dataLine?_read,
    (hBare row.1 (List.of_mem_zip hRow).1).1]
  rfl

theorem blocks_annotate :
    (target.annotate source.comments).document.blocks
      = (target.withTrailers source).owned.map
          (fun item => ⟨item.2.elim [] fun p => source.blockRows (some p), item.1.2⟩)
        ++ [⟨source.blockRows none, none⟩] := by
  rw [blocks, pathed_annotate hBare]
  exact Block.blocks_weave source.blockRows (isSome_of_mem_owned hBare)

/-- The annotated document has the blocks of the source at the paths that the
target has, and none at others. -/
theorem blockRows_annotate (p : Path) :
    (target.annotate source.comments).document.blockRows (some p)
      = if target.lineOf? p = none then [] else source.blockRows (some p) := by
  rw [blockRows, blocks_annotate hBare, Block.rowsAt_weave source.blockRows
    (isSome_of_mem_owned hBare), filterMap_owned, lineOf?_congr (outline_withTrailers hBare source)]
  split <;> simp

/-- It has the block that ends the source, at its end. -/
theorem blockRows_annotate_none :
    (target.annotate source.comments).document.blockRows none = source.blockRows none := by
  have hNone : ((target.withTrailers source).owned.map fun item => Block.mk
      (item.2.elim [] fun p => source.blockRows (some p)) item.1.2).filter (·.anchor? = none) = [] := by
    rw [List.filter_eq_nil_iff]
    intro block hBlock
    obtain ⟨item, hItem, rfl⟩ := List.mem_map.mp hBlock
    have hSome := isSome_of_mem_owned hBare item hItem
    simpa [← Option.isSome_iff_ne_none] using hSome
  rw [blockRows, blocks_annotate hBare, Block.rowsAt, List.filter_append, hNone]
  simp

/-- It has the trailers of the source at the paths that the target has, and none
at others. -/
theorem trailersAt_annotate (p : Path) :
    (target.annotate source.comments).document.trailersAt p
      = if target.lineOf? p = none then [] else source.trailersAt p := by
  have hOutline := outline_withTrailers hBare source
  have hAbove : ∀ a, ∀ row ∈ (source.blockRows a).map (fun text => (text, (none : Option Path))),
      decide (row.2 = some p) = false := by
    intro a row hRow
    obtain ⟨text, -, rfl⟩ := List.mem_map.mp hRow
    simp
  have hTrailer : ∀ item ∈ (target.withTrailers source).owned,
      item.1.1.trailer = item.2.elim [] source.trailersAt := by
    intro item hItem
    obtain ⟨text, hText, hEq⟩ := mem_owned_withTrailers hOutline hItem
    rw [hEq]
    apply Text.trailer_append_of_data (hBare text hText).1
    cases item.2 with
    | none => exact .inl rfl
    | some q => exact source.trailersAt_eq q
  have hOwners : ∀ items : List ((Text × Option Path) × Option Path),
      items.flatMap (fun item => item.2.elim [] source.trailersAt)
        = (items.filterMap (·.2)).flatMap source.trailersAt := by
    intro items
    rw [List.filterMap_eq_flatMap_toList, List.flatMap_assoc]
    apply List.flatMap_congr
    intro item _
    cases item.2 <;> simp
  rw [trailersAt, pathed_annotate hBare, filter_weave hAbove, List.filter_map, List.flatMap_map,
    List.flatMap_congr fun item hItem => hTrailer item (List.mem_filter.mp hItem).1, hOwners]
  show (((target.withTrailers source).owned.filter (·.1.2 = some p)).filterMap (·.2)).flatMap _ = _
  rw [filterMap_owned, lineOf?_congr hOutline]
  split <;> simp

end Annotated

end Document

-- ---------------------------------------------------------------------------
-- Another version on the way
-- ---------------------------------------------------------------------------

namespace Document

theorem blockRows_eq_nil {d : Document} {p : Path} (hPath : p ∉ d.pathTable.map (·.2)) :
    d.blockRows (some p) = [] := by
  rw [map_snd_pathTable] at hPath
  exact Block.rowsAt_eq_nil hPath

theorem trailersAt_eq_nil {d : Document} {p : Path} (hPath : p ∉ d.pathTable.map (·.2)) :
    d.trailersAt p = [] := by
  rw [map_snd_pathTable] at hPath
  rw [trailersAt, filter_path_eq_nil hPath, List.flatMap_nil]

/-- Only what a source has at the paths of the target matters for the merge. -/
theorem mergedRows_congr {source other target : Document}
    (hBlocks : ∀ p ∈ target.pathTable.map (·.2), other.blockRows (some p) = source.blockRows (some p))
    (hTrailers : ∀ p ∈ target.pathTable.map (·.2), other.trailersAt p = source.trailersAt p)
    (hBottom : other.blockRows none = source.blockRows none) :
    mergedRows other target = mergedRows source target := by
  rw [mergedRows, mergedRows, hBottom]
  congr 1
  apply List.flatMap_congr
  rintro ⟨text, own?⟩ hRow
  cases own? with
  | none => rfl
  | some p =>
    obtain ⟨n, hn⟩ := List.mem_iff_getElem?.mp hRow
    have hLine := getElem?_ownPaths_iff.mp (List.getElem?_zip_eq_some.mp hn).2
    have hPath : p ∈ target.pathTable.map (·.2) := by
      by_contra hMissing
      rw [lineOf?_eq_none_iff_pathTable.mpr hMissing] at hLine
      cases hLine
    show other.blockRows (some p) ++ [text ++ other.trailersAt p]
      = source.blockRows (some p) ++ [text ++ source.trailersAt p]
    rw [hBlocks p hPath, hTrailers p hPath]

end Document

/-- **Comments survive repeated generation.** Take a document without comments
whose data is tidy, annotate it, and annotate a second one with the comments of
the result: that is the second one annotated with the comments of the source, if
the first one has all the paths that the source and the second one share. Paths
may occur several times in any of them. -/
theorem annotate_regenerated {source first second : Document}
    (hFirst : ∀ text ∈ first.rows, text.form = .data ∧ text.Tidy)
    (hSecond : ∀ text ∈ second.rows, text.form = .data → text.Tidy)
    (hCover : ∀ p ∈ source.pathTable.map (·.2), p ∈ second.pathTable.map (·.2) →
      p ∈ first.pathTable.map (·.2)) :
    (second.annotate (first.annotate source.comments).document.comments).document
      = (second.annotate source.comments).document := by
  have hLine : ∀ p ∈ second.pathTable.map (·.2), first.lineOf? p = none →
      p ∉ source.pathTable.map (·.2) := by
    intro p hPath hMissing hSource
    exact Document.lineOf?_eq_none_iff_pathTable.mp hMissing (hCover p hSource hPath)
  have hMerge : mergedRows (first.annotate source.comments).document second
      = mergedRows source second := by
    refine Document.mergedRows_congr (fun p hPath => ?_) (fun p hPath => ?_)
      (Document.blockRows_annotate_none hFirst)
    · rw [Document.blockRows_annotate hFirst]
      split
      · next hMissing => rw [Document.blockRows_eq_nil (hLine p hPath hMissing)]
      · rfl
    · rw [Document.trailersAt_annotate hFirst]
      split
      · next hMissing => rw [Document.trailersAt_eq_nil (hLine p hPath hMissing)]
      · rfl
  have hWays : ∀ origin : Document, (second.annotate origin.comments).document
      = { second with rows := mergedRows origin second } :=
    fun origin => Document.document_complete (Document.bears_of_tidy hSecond _)
  rw [hWays, hWays, hMerge]

/-- The first version is in another order and lacks a row of the source; the
second one has a row of its own. -/
theorem annotate_regenerated_reordered :
    ∃ source first second : Document,
      source.rows = ["# on a".toList, "a: 1 # one".toList, "# on c".toList, "c: 2".toList,
        "".toList, "b:".toList, "    - x # two".toList, "# end".toList] ∧
      first.rows = ["b:".toList, "  - x".toList, "a: 3".toList] ∧
      second.rows = ["a: 4".toList, "b:".toList, "  - x".toList, "d: 5".toList] ∧
      (∀ text ∈ first.rows, text.form = .data ∧ text.Tidy) ∧
      (∀ text ∈ second.rows, text.form = .data → text.Tidy) ∧
      (∀ p ∈ source.pathTable.map (·.2), p ∈ second.pathTable.map (·.2) →
        p ∈ first.pathTable.map (·.2)) ∧
      (second.annotate (first.annotate source.comments).document.comments).document
        = (second.annotate source.comments).document ∧
      (second.annotate source.comments).document.rows = ["# on a".toList, "a: 4 # one".toList,
        "".toList, "b:".toList, "  - x # two".toList, "d: 5".toList, "# end".toList] := by
  refine ⟨Document.ofRows 4 _, Document.ofRows 2 _, Document.ofRows 2 _, rfl, rfl, rfl,
    by decide, by decide, by decide, ?_, by decide⟩
  exact annotate_regenerated (by decide) (by decide) (by decide)

end Marginalia
