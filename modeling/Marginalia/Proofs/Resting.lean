import Marginalia.Proofs.Merge

/-!
# Where comments rest

A comment rests on the first row with data at or below it, an inline comment on
its own row, and on the end of the document if there is no such row. Its anchor
leads there: a comment above another one is anchored at that one, which is
anchored in turn, until a line of data or the end of the document is reached.

When comments are put into another document, what they rest on decides their
fate. They are left out exactly if it is a row whose path the other document
lacks, so the comments of a block are left out together.

## Results

* `Document.restsOn?_eq_some_iff`     — what a comment rests on, by the rows below it.
* `Collection.RestsOn`                — what a comment rests on, by following anchors.
* `Document.Anchored.restsOn`         — both are the same for the comments taken from a document.
* `orphans_rest_on_missing`           — the comments that are left out.
-/

namespace Marginalia

namespace Document

-- ---------------------------------------------------------------------------
-- By the rows below
-- ---------------------------------------------------------------------------

/-- Row `m` is the first row with data at or below row `n`. -/
def FirstDataFrom (d : Document) (n m : Nat) : Prop :=
  n ≤ m ∧ (d.dataLineAt? m).isSome ∧ ∀ k, n ≤ k → k < m → d.dataLineAt? k = none

theorem pathAt?_eq_none_iff {d : Document} {n : Nat} :
    d.pathAt? n = none ↔ d.dataLineAt? n = none := by
  rw [← Option.not_isSome_iff_eq_none, isSome_pathAt?, Option.not_isSome_iff_eq_none]

/-- A row without data rests on what the row below it rests on. -/
theorem restsOn?_of_pathAt?_eq_none {d : Document} {n : Nat} (hPath : d.pathAt? n = none) :
    d.restsOn? n = d.restsOn? (n + 1) := by
  rw [restsOn?, restsOn?]
  by_cases hLt : n < d.paths.length
  · have hAt : d.paths[n] = none := by
      rw [pathAt?, List.getElem?_eq_getElem hLt, Option.join_some] at hPath
      exact hPath
    rw [List.drop_eq_getElem_cons hLt, hAt]
    rfl
  · rw [List.drop_eq_nil_of_le (by omega), List.drop_eq_nil_of_le (by omega)]

theorem restsOn?_of_none_between {d : Document} {n m : Nat} (hLe : n ≤ m)
    (hNone : ∀ k, n ≤ k → k < m → d.pathAt? k = none) : d.restsOn? n = d.restsOn? m := by
  induction m, hLe using Nat.le_induction with
  | base => rfl
  | succ m hLe ih =>
    rw [ih fun k hk hLt => hNone k hk (by omega),
      restsOn?_of_pathAt?_eq_none (hNone m hLe (by omega))]

/-- A row rests on the path of the first row with data at or below it. -/
theorem restsOn?_eq_some_iff {d : Document} {n : Nat} {p : Path} :
    d.restsOn? n = some p ↔ ∃ m, d.FirstDataFrom n m ∧ d.pathAt? m = some p := by
  constructor
  · intro hRests
    obtain ⟨upper, p?, lower, hDrop, hp, hUpper⟩ := List.findSome?_eq_some_iff.mp hRests
    obtain rfl : p? = some p := hp
    have hAt : ∀ i, d.paths[n + i]? = (upper ++ some p :: lower)[i]? := by
      intro i
      rw [← hDrop, List.getElem?_drop]
    have hPath : d.pathAt? (n + upper.length) = some p := by
      rw [pathAt?, hAt]
      simp
    refine ⟨n + upper.length, ⟨Nat.le_add_right _ _, ?_, fun k hk hLt => ?_⟩, hPath⟩
    · rw [← isSome_pathAt?, hPath]
      rfl
    · obtain ⟨i, rfl⟩ := Nat.exists_eq_add_of_le hk
      have hi : i < upper.length := by omega
      rw [← pathAt?_eq_none_iff, pathAt?, hAt, List.getElem?_append_left hi,
        List.getElem?_eq_getElem hi, Option.join_some]
      exact hUpper _ (List.getElem_mem hi)
  · rintro ⟨m, ⟨hLe, -, hNone⟩, hPath⟩
    rw [restsOn?_of_none_between hLe fun k hk hLt => pathAt?_eq_none_iff.mpr (hNone k hk hLt),
      restsOn?_of_pathAt? hPath]

theorem restsOn?_of_length_le {d : Document} {n : Nat} (hLe : d.length ≤ n) :
    d.restsOn? n = none := by
  rw [restsOn?, List.drop_eq_nil_of_le (by rwa [length_paths])]
  rfl

end Document

-- ---------------------------------------------------------------------------
-- By following anchors
-- ---------------------------------------------------------------------------

/-- What a comment rests on, found by following anchors: the path of a line of
data, or `none` for the end of the document. A comment anchored at another one
rests on what that one rests on. -/
inductive Collection.RestsOn (comments : Collection) : Comment → Option Path → Prop
  | data {comment : Comment} {line : Line} {p : Path} (hAnchor : comment.anchor? = some (.data line))
      (hPath : line.path? = some p) : RestsOn comments comment (some p)
  | bottom {comment : Comment} (hAnchor : comment.anchor? = some .bottom) :
      RestsOn comments comment none
  | comment {comment next : Comment} {line : Line} {place? : Option Path}
      (hAnchor : comment.anchor? = some (.comment line))
      (hNext : comments.get? line.number = some next) (hRests : RestsOn comments next place?) :
      RestsOn comments comment place?

/-- Anchors lead to one place. -/
theorem Collection.RestsOn.unique {comments : Collection} {comment : Comment}
    {place? other? : Option Path} (hRests : comments.RestsOn comment place?)
    (hOther : comments.RestsOn comment other?) : place? = other? := by
  induction hRests with
  | data hAnchor hPath =>
    cases hOther with
    | data hAnchor' hPath' => simp_all
    | bottom hAnchor' => simp_all
    | comment hAnchor' => simp_all
  | bottom hAnchor =>
    cases hOther with
    | data hAnchor' hPath' => simp_all
    | bottom hAnchor' => rfl
    | comment hAnchor' => simp_all
  | comment hAnchor hNext _ ih =>
    cases hOther with
    | data hAnchor' hPath' => simp_all
    | bottom hAnchor' => simp_all
    | comment hAnchor' hNext' hRests' =>
      obtain rfl : _ = _ := Anchor.comment.inj (Option.some.inj (hAnchor.symm.trans hAnchor'))
      obtain rfl := Option.some.inj (hNext.symm.trans hNext')
      exact ih hRests'

namespace Document

/-- A comment is found by the number of its line. -/
theorem get?_line_of_mem_comments {d : Document} {n : Nat} {comment : Comment}
    (hEntry : (n, comment) ∈ d.comments.entries) :
    d.comments.get? comment.line.number = some comment := by
  rw [(line_of_mem_comments hEntry).1]
  exact Collection.get?_eq_some_iff.mpr hEntry

/-- **Anchors lead to what a comment rests on.** By induction on the anchors: a line of
data or the end of the document is what it is, and a comment rests on what the one
right below it rests on. -/
theorem Anchored.restsOn {d : Document} {n : Nat} {comment : Comment} (hAnchored : d.Anchored n comment) :
    d.comments.RestsOn comment (d.restsOn? n) := by
  induction hAnchored with
  | own hAnchor _ _ hPath hData =>
    obtain ⟨p, hOwn⟩ := Option.isSome_iff_exists.mp hData
    rw [restsOn?_of_pathAt? hOwn]
    exact .data hAnchor (hPath.symm.trans hOwn)
  | line line hAnchor hNone _ _ hPath hData =>
    obtain ⟨p, hNext⟩ := Option.isSome_iff_exists.mp hData
    rw [restsOn?_of_pathAt?_eq_none hNone, restsOn?_of_pathAt? hNext]
    exact .data hAnchor (hPath.symm.trans hNext)
  | comment below hAnchor hNone hBelow _ _ _ ih =>
    rw [restsOn?_of_pathAt?_eq_none hNone]
    exact .comment hAnchor (get?_line_of_mem_comments hBelow) ih
  | bottom hAnchor hNone hLast =>
    rw [restsOn?_of_pathAt?_eq_none hNone, restsOn?_of_length_le (Nat.le_of_eq hLast)]
    exact .bottom hAnchor

theorem restsOn_of_mem_comments {d : Document} {n : Nat} {comment : Comment}
    (hEntry : (n, comment) ∈ d.comments.entries) :
    d.comments.RestsOn comment (d.restsOn? n) :=
  (anchored_of_mem_comments hEntry).restsOn

end Document

-- ---------------------------------------------------------------------------
-- Who is left out
-- ---------------------------------------------------------------------------

namespace Document

theorem lineOf?_eq_none_iff_pathTable {d : Document} {p : Path} :
    d.lineOf? p = none ↔ p ∉ d.pathTable.map (·.2) := by
  rw [lineOf?_eq_none_iff, map_snd_pathTable, filterMap_snd_pathed, List.mem_filterMap]
  simp

theorem mem_numbers_comments_iff {d : Document} {n : Nat} :
    n ∈ d.comments.numbers ↔ ∃ comment, d.rowAt? n = some (.comment comment) := by
  rw [Collection.numbers, List.mem_map]
  constructor
  · rintro ⟨entry, hEntry, rfl⟩
    obtain ⟨k, comment, hRow, rfl⟩ := mem_entries_comments_iff.mp hEntry
    exact ⟨comment, hRow⟩
  · rintro ⟨comment, hRow⟩
    exact ⟨_, mem_entries_comments_iff.mpr ⟨n, comment, hRow, rfl⟩, rfl⟩

/-- In a target with tidy data the comments left out are those that rest on a
path that it lacks. -/
theorem mem_orphans_annotate_iff_lacks {source target : Document}
    (hTidy : ∀ text ∈ target.rows, text.form = .data → text.Tidy) {n : Nat} :
    n ∈ (target.annotate source.comments).orphans
      ↔ n ∈ source.comments.numbers ∧ target.Lacks (source.restsOn? n) := by
  rw [target.orphans_annotate_eq_filter, List.mem_filter, decide_eq_true_eq]
  apply and_congr_right
  intro hNumber
  obtain ⟨entry, hEntry, rfl⟩ := List.mem_map.mp hNumber
  exact mem_orphans_complete_iff (bears_of_tidy hTidy _) hEntry

end Document

/-- **Who is left out.** The comments left out of a target whose data has no
white space but spaces and tabs at its start, and none at its end, are listed in
ascending order. They are those with a row with data at or below them of which
the first has a path that the target lacks; those that nothing follows but
comments are always placed. -/
theorem orphans_rest_on_missing {source target : Document}
    (hTidy : ∀ text ∈ target.rows, text.form = .data → text.Tidy) :
    (target.annotate source.comments).orphans.Pairwise (· < ·) ∧
    (∀ n, n ∈ (target.annotate source.comments).orphans ↔
      (∃ comment, source.rowAt? n = some (.comment comment)) ∧
      ∃ m p, source.FirstDataFrom n m ∧ source.pathAt? m = some p ∧
        p ∉ target.pathTable.map (·.2)) ∧
    ∀ n, (∀ m, n ≤ m → source.dataLineAt? m = none) →
      n ∉ (target.annotate source.comments).orphans := by
  have hOrphans : ∀ n, n ∈ (target.annotate source.comments).orphans ↔
      (∃ comment, source.rowAt? n = some (.comment comment)) ∧
      ∃ m p, source.FirstDataFrom n m ∧ source.pathAt? m = some p ∧
        p ∉ target.pathTable.map (·.2) := by
    intro n
    rw [Document.mem_orphans_annotate_iff_lacks hTidy, Document.mem_numbers_comments_iff,
      Document.Lacks]
    simp only [Document.restsOn?_eq_some_iff, Document.lineOf?_eq_none_iff_pathTable]
    apply and_congr_right
    intro _
    constructor
    · rintro ⟨p, ⟨m, hFirst, hPath⟩, hMissing⟩
      exact ⟨m, p, hFirst, hPath, hMissing⟩
    · rintro ⟨m, p, hFirst, hPath, hMissing⟩
      exact ⟨p, ⟨m, hFirst, hPath⟩, hMissing⟩
  refine ⟨target.ascending_orphans_annotate source.comments, hOrphans, fun n hNone hOrphan => ?_⟩
  obtain ⟨-, m, -, ⟨hLe, hData, -⟩, -⟩ := (hOrphans n).mp hOrphan
  rw [hNone m hLe] at hData
  cases hData

/-- A block above a missing row goes with it, though the target has a blank row
like one of the block's; the block at the end stays. -/
theorem orphans_rest_on_missing_block :
    ∃ source target : Document,
      source.rows = ["# on a".toList, "".toList, "a: 1 # one".toList, "".toList, "b: 2 # two".toList,
        "# end".toList] ∧
      target.rows = ["".toList, "b: 1".toList] ∧
      (∀ text ∈ target.rows, text.form = .data → text.Tidy) ∧
      (target.annotate source.comments).orphans = [0, 1, 2] ∧
      (∀ n, n ∈ [0, 1, 2] ↔ (∃ comment, source.rowAt? n = some (.comment comment)) ∧
        ∃ m p, source.FirstDataFrom n m ∧ source.pathAt? m = some p ∧
          p ∉ target.pathTable.map (·.2)) ∧
      ∀ n, (∀ m, n ≤ m → source.dataLineAt? m = none) → n ∉ [0, 1, 2] := by
  have hList : ((Document.ofRows 2 ["".toList, "b: 1".toList]).annotate (Document.ofRows 2
      ["# on a".toList, "".toList, "a: 1 # one".toList, "".toList, "b: 2 # two".toList,
        "# end".toList]).comments).orphans = [0, 1, 2] := by
    rw [Document.orphans_annotate_eq_filter]
    decide
  refine ⟨Document.ofRows 2 _, Document.ofRows 2 _, rfl, rfl, by decide, hList, ?_⟩
  obtain ⟨-, hOrphans⟩ := @orphans_rest_on_missing
    (Document.ofRows 2 ["# on a".toList, "".toList, "a: 1 # one".toList, "".toList,
      "b: 2 # two".toList, "# end".toList])
    (Document.ofRows 2 ["".toList, "b: 1".toList]) (by decide)
  rw [hList] at hOrphans
  exact hOrphans

end Marginalia
