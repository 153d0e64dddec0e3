import Marginalia.Proofs.Blocks
import Marginalia.Proofs.Runs

/-!
# The run of insertions

The comments with their own rows that are taken from one document are put into
another from the last one up, and every step looks up its place in a document
that the steps before have changed. After each step the document is the target
with the blocks of the rows so far woven in. The comment put in last is the top
row of the top block then, so a comment above another one is found by that one's
number, and never looked for by its text.

## Results

* `Document.PlacesAt`          — the place of a block in a document, whatever is woven into it.
* `Progress.Stands`            — the state of the run, after the comments of some last rows of the source.
* `Progress.Stands.insertionLine?`, `Progress.Stands.insert` — each step finds its place, and keeps the state.
* `Document.stands_rowEntries` — the run reaches that state for all rows of the source.
-/

namespace Marginalia

-- ---------------------------------------------------------------------------
-- The place of a block
-- ---------------------------------------------------------------------------

namespace Document

/-- A path that leads nowhere in a document; the end of the document is always
there. -/
def Lacks (d : Document) (anchor? : Option Path) : Prop :=
  ∃ p, anchor? = some p ∧ d.lineOf? p = none

/-- Where a row goes that belongs to a row with data, or to the end of the
document. -/
def landing? (d : Document) : Option Path → Option Nat
  | none => some d.length
  | some p => d.lineOf? p

/-- The rows above and below the place of a block, which are the same whatever
the block holds. -/
def Splits (d : Document) (anchor? : Option Path) (blocks : List Block)
    (upper lower : List Text) : Prop :=
  ∀ rows, (d.weaveIn (Block.rowsAt (⟨rows, anchor?⟩ :: blocks))).rows = upper ++ rows ++ lower

/-- `line?` is where the rows of a block go, if its anchor is there, and `none`
otherwise. -/
def PlacesAt (d : Document) (anchor? : Option Path) (blocks : List Block)
    (line? : Option Nat) : Prop :=
  (d.Lacks anchor? → line? = none) ∧
  (¬ d.Lacks anchor? →
    ∃ upper lower, d.Splits anchor? blocks upper lower ∧ line? = some upper.length)

variable {d : Document} {blocks : List Block}

/-- Every block has a place unless its anchor is lacking, and an empty block
lands on it. -/
theorem exists_splits
    (hBlocks : ∀ block ∈ blocks, ∀ text ∈ block.rows, OutlineRow.ofText? d.levelWidth text = none)
    {anchor? : Option Path} (hAnchor : ¬ d.Lacks anchor?) :
    ∃ upper lower, d.Splits anchor? blocks upper lower ∧
      (d.weaveIn (Block.rowsAt (⟨[], anchor?⟩ :: blocks))).landing? anchor?
        = some upper.length := by
  cases anchor? with
  | none =>
    refine ⟨(d.weaveIn (Block.rowsAt blocks)).rows, [], fun rows => ?_, ?_⟩
    · rw [weaveIn_bottom, List.append_nil]
    · rw [landing?, length, weaveIn_bottom, List.append_nil]
  | some p =>
    obtain ⟨n, hLine⟩ : ∃ n, d.lineOf? p = some n := by
      cases hLine : d.lineOf? p with
      | none => exact absurd ⟨p, rfl, hLine⟩ hAnchor
      | some n => exact ⟨n, rfl⟩
    exact weaveIn_owned hLine hBlocks

theorem landing?_eq_none {anchor? : Option Path} (hAnchor : d.Lacks anchor?)
    {above : Option Path → List Text}
    (hAbove : ∀ a, ∀ text ∈ above a, OutlineRow.ofText? d.levelWidth text = none) :
    (d.weaveIn above).landing? anchor? = none := by
  obtain ⟨p, rfl, hLine⟩ := hAnchor
  exact lineOf?_weaveIn_missing hLine hAbove

/-- The place of a block comes with a row more or less in it. -/
theorem Splits.insertAt {anchor? : Option Path} {upper lower : List Text}
    (hSplits : d.Splits anchor? blocks upper lower) (text : Text) (rows : List Text) :
    (d.weaveIn (Block.rowsAt (⟨rows, anchor?⟩ :: blocks))).insertAt upper.length text
      = d.weaveIn (Block.rowsAt (⟨text :: rows, anchor?⟩ :: blocks)) := by
  have hRows : (d.weaveIn (Block.rowsAt (⟨rows, anchor?⟩ :: blocks))).rows
      = upper ++ (rows ++ lower) := by
    rw [hSplits rows, List.append_assoc]
  have hMore := hSplits (text :: rows)
  rw [insertAt_of_rows_eq hRows]
  simp only [weaveIn] at hMore ⊢
  rw [hMore]
  simp only [List.append_assoc, List.cons_append]

end Document

-- ---------------------------------------------------------------------------
-- The run of insertions
-- ---------------------------------------------------------------------------

namespace Progress

/-- Row `i` of some rows is a comment, and the row with data that it rests on
has a path that leads nowhere. -/
def Lost (d : Document) (rows : List (Text × Option Path)) (i : Nat) : Prop :=
  (∃ text, rows[i]? = some (text, none)) ∧ d.Lacks ((rows.drop i).findSome? (·.2))

/-- The state of the run of insertions into a document, after the comments among
some rows of which the first has number `k`: their blocks are woven in, those
that lead nowhere are left out, and if the first row is a comment that is placed
then it is the one that was put in last. -/
structure Stands (d : Document) (start : Progress) (k : Nat) (rows : List (Text × Option Path))
    (progress : Progress) : Prop where
  document : progress.document = d.weaveIn (Block.rowsAt (Block.top rows :: Block.below rows))
  orphans : ∀ n, n ∈ progress.orphans ↔ n ∈ start.orphans ∨ ∃ i, n = k + i ∧ Lost d rows i
  latest : ∀ text rest, rows = (text, none) :: rest → ¬ d.Lacks (Block.top rest).anchor? →
    ∃ upper lower, d.Splits (Block.top rest).anchor? (Block.below rest) upper lower ∧
      progress.latest? = some (k, upper.length)

theorem rowsAt_cons_nil (anchor? : Option Path) (blocks : List Block) :
    Block.rowsAt (⟨[], anchor?⟩ :: blocks) = Block.rowsAt blocks := by
  funext a
  by_cases hEq : anchor? = a
  · rw [hEq, Block.rowsAt_cons_self, List.append_nil]
  · rw [Block.rowsAt_cons_of_ne hEq]

theorem lost_cons_zero_iff {d : Document} {text : Text} {p? : Option Path}
    {rest : List (Text × Option Path)} :
    Lost d ((text, p?) :: rest) 0 ↔ p? = none ∧ d.Lacks (Block.top rest).anchor? := by
  rw [Lost, List.drop_zero, List.findSome?_cons, Block.top]
  cases p? <;> simp

theorem lost_cons_succ_iff {d : Document} {row : Text × Option Path}
    {rest : List (Text × Option Path)}
    {i : Nat} : Lost d (row :: rest) (i + 1) ↔ Lost d rest i := by
  rw [Lost, List.getElem?_cons_succ, List.drop_succ_cons, Lost]

/-- The first row is lost if it is a comment on a path that is lacking; the
others are lost as they were. -/
theorem exists_lost_cons_iff {d : Document} {text : Text} {p? : Option Path}
    {rest : List (Text × Option Path)}
    {k n : Nat} : (∃ i, n = k + i ∧ Lost d ((text, p?) :: rest) i)
      ↔ (n = k ∧ p? = none ∧ d.Lacks (Block.top rest).anchor?)
        ∨ ∃ i, n = k + 1 + i ∧ Lost d rest i := by
  constructor
  · rintro ⟨i, rfl, hLost⟩
    cases i with
    | zero => exact .inl ⟨rfl, lost_cons_zero_iff.mp hLost⟩
    | succ i => exact .inr ⟨i, by omega, lost_cons_succ_iff.mp hLost⟩
  · rintro (⟨rfl, hLost⟩ | ⟨i, rfl, hLost⟩)
    · exact ⟨0, rfl, lost_cons_zero_iff.mpr hLost⟩
    · exact ⟨i + 1, by omega, lost_cons_succ_iff.mpr hLost⟩

/-- Where a full or blank comment goes, by the row below it. -/
theorem insertionLine?_above {progress : Progress} {comment : Comment}
    (hInline : comment.isInline = false)
    {next? : Option Row} (hNext : ∀ next ∈ next?, ∃ number, next.ReadAt number) :
    progress.insertionLine? (comment.anchoredAt (comment.anchorBefore next?)) =
      match next? with
      | none => some progress.document.length
      | some next =>
        match next.line.path? with
        | some p => progress.document.lineOf? p
        | none =>
          if next.line.number ∈ progress.orphans then none
          else (progress.latestOn? next.line).or
            (progress.document.lineOfText? next.line.text) := by
  rw [insertionLine?, insertionLineBy, Comment.anchoredAt, Comment.anchorBefore, hInline]
  cases next? with
  | none => rfl
  | some next =>
    obtain ⟨number, hRead⟩ := hNext next rfl
    cases hPath : next.line.path? with
    | some p => simp [Anchor.above, hRead.dataLine?_of_path_some hPath, hPath]
    | none => simp [Anchor.above, (hRead.of_path_none hPath).1, hPath]

/-- All comment rows among some rows have no part in the outline, and so neither
have the rows of their blocks. -/
theorem ofText?_of_mem_block {levelWidth : Nat} {rows : List (Text × Option Path)}
    (hRows : ∀ row ∈ rows, row.2 = none → OutlineRow.ofText? levelWidth row.1 = none) :
    ∀ block ∈ Block.top rows :: Block.below rows, ∀ text ∈ block.rows,
      OutlineRow.ofText? levelWidth text = none := by
  induction rows with
  | nil =>
    intro block hBlock text hText
    rw [List.mem_singleton.mp hBlock] at hText
    cases hText
  | cons row rest ih =>
    have hRest := ih fun other hOther => hRows other (List.mem_cons_of_mem row hOther)
    obtain ⟨own, p?⟩ := row
    cases p? with
    | none =>
      intro block hBlock text hText
      rcases List.mem_cons.mp hBlock with rfl | hBlock
      · rcases List.mem_cons.mp hText with rfl | hText
        · exact hRows (text, none) List.mem_cons_self rfl
        · exact hRest _ List.mem_cons_self text hText
      · exact hRest block (List.mem_cons_of_mem _ hBlock) text hText
    | some p =>
      intro block hBlock text hText
      rcases List.mem_cons.mp hBlock with rfl | hBlock
      · cases hText
      · exact hRest block hBlock text hText

variable {d : Document} {start progress : Progress} {k : Nat}

/-- An empty block at the top lands on its place. -/
theorem Stands.landing? {rows : List (Text × Option Path)}
    (hStands : Stands d start k rows progress)
    (hRows : ∀ row ∈ rows, row.2 = none → OutlineRow.ofText? d.levelWidth row.1 = none)
    (hEmpty : (Block.top rows).rows = []) :
    d.PlacesAt (Block.top rows).anchor? (Block.below rows)
      (progress.document.landing? (Block.top rows).anchor?) := by
  have hTop : Block.top rows = ⟨[], (Block.top rows).anchor?⟩ := by rw [← hEmpty]
  have hBlocks := ofText?_of_mem_block hRows
  rw [hStands.document, hTop]
  constructor
  · intro hLacks
    apply Document.landing?_eq_none hLacks
    intro a text hText
    obtain ⟨block, hBlock, hMem⟩ := Block.mem_of_mem_rowsAt hText
    rw [← hTop] at hBlock
    exact hBlocks block hBlock text hMem
  · intro hHas
    have hBelow := fun block hBlock => hBlocks block (List.mem_cons_of_mem _ hBlock)
    exact Document.exists_splits hBelow hHas

/-- The comment that was put in last is found by its number, so its text is not
looked for. -/
theorem Stands.latestOn? {text : Text} {rest : List (Text × Option Path)}
    (hStands : Stands d start k ((text, none) :: rest) progress)
    (hHas : ¬ d.Lacks (Block.top rest).anchor?) {line : Line} (hNumber : line.number = k)
    (hText : line.text = text) :
    ∃ upper lower, d.Splits (Block.top rest).anchor? (Block.below rest) upper lower ∧
      progress.latestOn? line = some upper.length := by
  obtain ⟨upper, lower, hSplits, hLatest⟩ := hStands.latest text rest rfl hHas
  have hRow : progress.document.textAt? upper.length = some text := by
    rw [hStands.document, Block.top_cons_none, Document.textAt?]
    show (d.weaveIn (Block.rowsAt (_ :: Block.below rest))).rows[upper.length]? = _
    rw [hSplits (text :: (Block.top rest).rows)]
    simp
  refine ⟨upper, lower, hSplits, ?_⟩
  rw [Progress.latestOn?, hLatest, Option.bind_some]
  exact if_pos ⟨hNumber.symm, by rw [hRow, hText]⟩

/-- Above another comment there is no place if that one was left out, and otherwise the
place is where it was put in. What a search for its text gives, `found?`, has no
part in it. -/
theorem Stands.placesAt_above_comment {text : Text} {rest : List (Text × Option Path)}
    (hStands : Stands d start k ((text, none) :: rest) progress) (hStart : k ∉ start.orphans)
    {line : Line} (hNumber : line.number = k) (hText : line.text = text) (found? : Option Nat) :
    d.PlacesAt (Block.top ((text, none) :: rest)).anchor? (Block.below ((text, none) :: rest))
      (if line.number ∈ progress.orphans then none else (progress.latestOn? line).or found?) := by
  rw [hNumber]
  constructor
  · intro hLacks
    have hLost : k ∈ progress.orphans :=
      (hStands.orphans k).mpr (.inr ⟨0, rfl, lost_cons_zero_iff.mpr ⟨rfl, hLacks⟩⟩)
    rw [if_pos hLost]
  · intro hHas
    have hKept : k ∉ progress.orphans := by
      intro hMem
      rcases (hStands.orphans k).mp hMem with hMem | ⟨i, hi, hLost⟩
      · exact hStart hMem
      · obtain rfl : i = 0 := by omega
        exact hHas (lost_cons_zero_iff.mp hLost).2
    obtain ⟨upper, lower, hSplits, hLatest⟩ := hStands.latestOn? hHas hNumber hText
    refine ⟨upper, lower, hSplits, ?_⟩
    rw [if_neg hKept, hLatest, Option.some_or]

/-- **Where the next comment up goes.** It has no place if its anchor is
lacking; otherwise it goes to the place of its block, above the comment that was
put in last if that belongs to the block. -/
theorem Stands.insertionLine? {rest : List Row}
    (hStands : Stands d start k (rest.map Row.pathed) progress) (hRead : Row.ReadFrom k rest)
    (hStart : ∀ next ∈ rest.head?, next.line.path? = none → k ∉ start.orphans) {comment : Comment}
    (hInline : comment.isInline = false) :
    d.PlacesAt (Block.top (rest.map Row.pathed)).anchor? (Block.below (rest.map Row.pathed))
      (progress.insertionLine? (comment.anchoredAt (comment.anchorBefore rest.head?))) := by
  have hNone : ∀ row ∈ rest.map Row.pathed, row.2 = none →
      OutlineRow.ofText? d.levelWidth row.1 = none := by
    intro item hItem hPath
    obtain ⟨row, hRow, rfl⟩ := List.mem_map.mp hItem
    obtain ⟨number, hReadAt⟩ := hRead.exists_readAt hRow
    exact (hReadAt.of_path_none hPath).2.2 d.levelWidth
  have hHead : ∀ next ∈ rest.head?, ∃ number, next.ReadAt number :=
    fun next hNext => hRead.exists_readAt (List.mem_of_head? hNext)
  rw [insertionLine?_above hInline hHead]
  -- at the end and above a row with data the block is still empty; above a
  -- comment it has that comment on top
  cases rest with
  | nil => exact hStands.landing? hNone rfl
  | cons next more =>
    cases hPath : next.line.path? with
    | some p =>
      have hTop : Block.top ((next :: more).map Row.pathed) = ⟨[], some p⟩ := by
        rw [List.map_cons, Row.pathed, hPath, Block.top_cons_some]
      have hLanding := hStands.landing? hNone (by rw [hTop])
      rw [hTop] at hLanding ⊢
      simp only [List.head?_cons, hPath]
      exact hLanding
    | none =>
      have hRow : (next :: more).map Row.pathed
          = (next.line.text, none) :: more.map Row.pathed := by
        rw [List.map_cons, Row.pathed, hPath]
      rw [hRow] at hStands ⊢
      simp only [List.head?_cons, hPath]
      exact hStands.placesAt_above_comment (hStart next rfl hPath) hRead.head.number_eq rfl _

-- ---------------------------------------------------------------------------
-- One step, and the whole run
-- ---------------------------------------------------------------------------

/-- A row with data starts a new block, which is empty, and takes no step. -/
theorem Stands.cons_some {rest : List (Text × Option Path)}
    (hStands : Stands d start (k + 1) rest progress)
    (text : Text) (p : Path) : Stands d start k ((text, some p) :: rest) progress where
  document := by
    rw [Block.top_cons_some, rowsAt_cons_nil]
    exact hStands.document
  orphans := by
    intro n
    rw [hStands.orphans, exists_lost_cons_iff]
    simp
  latest := by
    intro other more hEq
    cases hEq

/-- **One step.** A comment goes to the top of its block, or is left out with
it. -/
theorem Stands.insert {rest : List (Text × Option Path)}
    (hStands : Stands d start (k + 1) rest progress)
    {comment : Comment}
    (hPlaces : d.PlacesAt (Block.top rest).anchor? (Block.below rest)
      (progress.insertionLine? comment)) :
    Stands d start k ((comment.line.text, none) :: rest)
      (Progress.insert (k, comment) progress) := by
  by_cases hLacks : d.Lacks (Block.top rest).anchor?
  · rw [insert_of_none (hPlaces.1 hLacks)]
    obtain ⟨p, hAnchor, hLine⟩ := id hLacks
    have hTop : Block.top rest = ⟨(Block.top rest).rows, some p⟩ := by rw [← hAnchor]
    refine ⟨?_, fun n => ?_, fun text more hEq hHas => ?_⟩
    · -- the block goes nowhere, with the row or without it
      show progress.document = _
      rw [hStands.document, Block.top_cons_none, hAnchor, hTop, Document.weaveIn_missing hLine,
        Document.weaveIn_missing hLine]
      rfl
    · rw [List.mem_cons, hStands.orphans, exists_lost_cons_iff]
      tauto
    · obtain ⟨-, rfl⟩ := List.cons.inj hEq
      exact absurd hLacks hHas
  · obtain ⟨upper, lower, hSplits, hLine⟩ := hPlaces.2 hLacks
    rw [insert_of_some hLine]
    refine ⟨?_, fun n => ?_, fun text more hEq _ => ?_⟩
    · show progress.document.insertAt upper.length comment.line.text = _
      rw [hStands.document]
      exact hSplits.insertAt comment.line.text (Block.top rest).rows
    · show n ∈ progress.orphans ↔ _
      rw [hStands.orphans, exists_lost_cons_iff]
      tauto
    · obtain ⟨-, rfl⟩ := List.cons.inj hEq
      exact ⟨upper, lower, hSplits, rfl⟩

theorem stands_nil (start : Progress) (k : Nat) : Stands start.document start k [] start where
  document := by
    have hRows : weave (Block.rowsAt (Block.top [] :: Block.below []))
        (start.document.rows.zip start.document.ownPaths) = start.document.rows := by
      rw [weave_of_forall_nil fun a => by rw [Block.top_nil, rowsAt_cons_nil]; rfl,
        List.map_fst_zip (Nat.le_of_eq start.document.length_ownPaths.symm)]
    rw [Document.weaveIn, hRows]
  orphans := by simp [Lost]
  latest := by
    intro text rest hEq
    cases hEq

/-- A row with data gives no comment with its own row. -/
theorem filter_commentsFrom_of_path_some {row : Row} (hRow : row.ReadAt k) {p : Path}
    (hPath : row.line.path? = some p) (rest : List Row) :
    (Document.commentsFrom k (row :: rest)).filter (!·.2.isInline)
      = (Document.commentsFrom (k + 1) rest).filter (!·.2.isInline) := by
  have hData := hRow.dataLine?_of_path_some hPath
  cases row with
  | data line => rfl
  | comment comment =>
    have hInline : comment.isInline = true := by
      by_contra hNot
      simp [Row.dataLine?, hNot] at hData
    rw [Document.commentsFrom]
    exact List.filter_cons_of_neg (by simpa [Comment.anchoredAt, Comment.isInline] using hInline)

theorem filter_commentsFrom_of_not_inline {comment : Comment} (hInline : comment.isInline = false)
    (rest : List Row) :
    (Document.commentsFrom k (.comment comment :: rest)).filter (!·.2.isInline)
      = (k, comment.anchoredAt (comment.anchorBefore rest.head?))
          :: (Document.commentsFrom (k + 1) rest).filter (!·.2.isInline) := by
  rw [Document.commentsFrom]
  exact List.filter_cons_of_pos (by simpa [Comment.anchoredAt, Comment.isInline] using hInline)

/-- **The whole run.** By induction on the rows of the source from the last one
up: rows with data start blocks, and each comment above them takes one step. -/
theorem stands_foldr {rows : List Row} (hRead : Row.ReadFrom k rows)
    (hStart : ∀ (i : Nat) (row : Row), rows[i]? = some row → row.line.path? = none →
      k + i ∉ start.orphans) :
    Stands start.document start k (rows.map Row.pathed)
      (((Document.commentsFrom k rows).filter (!·.2.isInline)).foldr Progress.insert start) := by
  induction rows generalizing k with
  | nil => exact stands_nil start k
  | cons row rest ih =>
    have hStands := ih hRead.tail fun i other hOther hPath => by
      have h := hStart (i + 1) other hOther hPath
      rwa [show k + (i + 1) = k + 1 + i by omega] at h
    have hRow := hRead.head
    cases hPath : row.line.path? with
    | some p =>
      rw [filter_commentsFrom_of_path_some hRow hPath, List.map_cons, Row.pathed, hPath]
      exact hStands.cons_some row.line.text p
    | none =>
      obtain ⟨-, ⟨comment, rfl, hInline⟩, -⟩ := hRow.of_path_none hPath
      rw [filter_commentsFrom_of_not_inline hInline, List.foldr_cons, List.map_cons, Row.pathed,
        hPath]
      have hNotLeftOut : ∀ next ∈ rest.head?, next.line.path? = none → k + 1 ∉ start.orphans := by
        intro next hNext hNextPath
        rw [List.head?_eq_getElem?] at hNext
        exact hStart 1 next hNext hNextPath
      exact hStands.insert (hStands.insertionLine? hRead.tail hNotLeftOut hInline)

end Progress

/-- The run of the comments of a document, with any progress made before on
other comments. -/
theorem Document.stands_rowEntries (source : Document) {start : Progress}
    (hStart : ∀ n ∈ start.orphans, (source.pathAt? n).isSome) :
    Progress.Stands start.document start 0 source.pathed
      (source.comments.rowEntries.foldr Progress.insert start) := by
  rw [← map_pathed_readRows]
  apply Progress.stands_foldr source.readFrom_readRows
  intro i row hRow hPath hMem
  rw [Nat.zero_add] at hMem
  have hSome := hStart i hMem
  rw [pathAt?_of_getElem?_readRows hRow, hPath] at hSome
  cases hSome

end Marginalia
