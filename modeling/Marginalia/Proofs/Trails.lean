import Marginalia.Proofs.Hanging
import Marginalia.Proofs.Resting
import Mathlib.Data.List.Intervals

/-!
# Trails of anchors

The anchor of a comment is a line of data, the end of the document, or another
comment, whose anchor can be followed in turn. The comments that are passed in
this way and the place that is reached in the end are the trail of the comment.

For the comments taken from a document a trail never breaks off. It passes all
lines between the comment and the first row with data below it, one after the
other, and ends at the line of this row. Only if there is no such row it goes on to
the end of the document. An inline comment is where its trail ends.

What the anchors are rests on the paths, and these are looked up in the index of
the document. The index is the one of the rows whatever changes were made, so this
holds in all that is reached from an opened document.

## Results

* `Collection.Leads`               — a trail: the comments that anchors lead through, and where to.
* `Collection.Leads.unique`        — a comment has one trail.
* `Document.RunsDown`              — the trail that the rows call for.
* `Document.Anchored.exists_leads` — the trail of a comment is the one that the rows call for.
* `anchors_lead_to_data`           — the comments and their trails in all that is reached.
-/

namespace Marginalia

-- ---------------------------------------------------------------------------
-- By following anchors
-- ---------------------------------------------------------------------------

/-- The anchors lead from a comment through the comments kept under the numbers
`passed`, one after the other, to a line of data or the end of the document. -/
inductive Collection.Leads (comments : Collection) : Comment → List Nat → Anchor → Prop
  | data {comment : Comment} {line : Line} (hAnchor : comment.anchor? = some (.data line)) :
      Leads comments comment [] (.data line)
  | bottom {comment : Comment} (hAnchor : comment.anchor? = some .bottom) :
      Leads comments comment [] .bottom
  | comment {comment next : Comment} {line : Line} {passed : List Nat} {place : Anchor}
      (hAnchor : comment.anchor? = some (.comment line))
      (hNext : comments.get? line.number = some next) (hLeads : Leads comments next passed place) :
      Leads comments comment (line.number :: passed) place

/-- A comment has one trail. -/
theorem Collection.Leads.unique {comments : Collection} {comment : Comment} {passed others : List Nat}
    {place other : Anchor} (hLeads : comments.Leads comment passed place)
    (hOther : comments.Leads comment others other) : passed = others ∧ place = other := by
  induction hLeads generalizing others with
  | data hAnchor =>
    cases hOther with
    | data hAnchor' => exact ⟨rfl, Option.some.inj (hAnchor.symm.trans hAnchor')⟩
    | bottom hAnchor' => cases hAnchor.symm.trans hAnchor'
    | comment hAnchor' => cases hAnchor.symm.trans hAnchor'
  | bottom hAnchor =>
    cases hOther with
    | data hAnchor' => cases hAnchor.symm.trans hAnchor'
    | bottom hAnchor' => exact ⟨rfl, rfl⟩
    | comment hAnchor' => cases hAnchor.symm.trans hAnchor'
  | comment hAnchor hNext _ ih =>
    cases hOther with
    | data hAnchor' => cases hAnchor.symm.trans hAnchor'
    | bottom hAnchor' => cases hAnchor.symm.trans hAnchor'
    | comment hAnchor' hNext' hLeads' =>
      obtain rfl := Anchor.comment.inj (Option.some.inj (hAnchor.symm.trans hAnchor'))
      obtain rfl := Option.some.inj (hNext.symm.trans hNext')
      obtain ⟨rfl, rfl⟩ := ih hLeads'
      exact ⟨rfl, rfl⟩

namespace Document

variable {d : Document} {n m : Nat} {comment : Comment} {passed : List Nat} {place : Anchor}

-- ---------------------------------------------------------------------------
-- By the rows below
-- ---------------------------------------------------------------------------

/-- The trail that the rows call for from line `n` on: down to the first row with
data, or to the end of the document if there is none. -/
inductive RunsDown (d : Document) (n : Nat) : List Nat → Anchor → Prop
  | data {line : Line} (hFirst : d.FirstDataFrom n line.number)
      (hText : d.textAt? line.number = some line.text) (hPath : d.pathAt? line.number = line.path?) :
      RunsDown d n (List.Ico (n + 1) line.number) (.data line)
  | bottom (hNone : ∀ m, n ≤ m → d.dataLineAt? m = none) :
      RunsDown d n (List.Ico (n + 1) d.length) .bottom

/-- A row with data is the first at or below itself. -/
theorem firstDataFrom_self (hData : (d.pathAt? n).isSome) : d.FirstDataFrom n n := by
  refine ⟨Nat.le_refl n, ?_, fun k hk hLt => absurd hLt (Nat.not_lt.mpr hk)⟩
  rwa [← isSome_pathAt?]

/-- Above a row stands another one without data: the first row with data is the same. -/
theorem FirstDataFrom.above (hFirst : d.FirstDataFrom (n + 1) m) (hNone : d.pathAt? n = none) :
    d.FirstDataFrom n m := by
  obtain ⟨hLe, hData, hBetween⟩ := hFirst
  refine ⟨Nat.le_of_succ_le hLe, hData, fun k hk hLt => ?_⟩
  rcases Nat.eq_or_lt_of_le hk with rfl | hBelow
  · exact pathAt?_eq_none_iff.mp hNone
  · exact hBetween k hBelow hLt

theorem none_from_above (hNone : d.pathAt? n = none)
    (hRest : ∀ m, n + 1 ≤ m → d.dataLineAt? m = none) (m : Nat) (hLe : n ≤ m) :
    d.dataLineAt? m = none := by
  rcases Nat.eq_or_lt_of_le hLe with rfl | hLower
  · exact pathAt?_eq_none_iff.mp hNone
  · exact hRest m hLower

/-- One row without data more above two of them. -/
theorem RunsDown.above (hRuns : d.RunsDown (n + 1) passed place) (hNone : d.pathAt? n = none)
    (hBelow : d.pathAt? (n + 1) = none) (hLt : n + 1 < d.length) :
    d.RunsDown n ((n + 1) :: passed) place := by
  cases hRuns with
  | @data line hFirst hText hPath =>
    have hNext : n + 1 < line.number := by
      refine Nat.lt_of_le_of_ne hFirst.1 fun hSame => ?_
      have hData := hFirst.2.1
      rw [← hSame, pathAt?_eq_none_iff.mp hBelow] at hData
      cases hData
    rw [← List.Ico.eq_cons hNext]
    exact .data (hFirst.above hNone) hText hPath
  | bottom hRest =>
    rw [← List.Ico.eq_cons hLt]
    exact .bottom (none_from_above hNone hRest)

/-- The end of the document is reached exactly if no row with data is in between. -/
theorem RunsDown.place_eq_bottom_iff (hRuns : d.RunsDown n passed place) :
    place = .bottom ↔ ∀ m, n ≤ m → d.dataLineAt? m = none := by
  cases hRuns with
  | data hFirst =>
    obtain ⟨hLe, hData, -⟩ := hFirst
    constructor
    · intro hBottom
      cases hBottom
    · intro hNone
      rw [hNone _ hLe] at hData
      cases hData
  | bottom hNone => exact ⟨fun _ => hNone, fun _ => rfl⟩

-- ---------------------------------------------------------------------------
-- Both are the same
-- ---------------------------------------------------------------------------

/-- **A comment has the trail that the rows call for.** By induction on the anchors: a
line of data or the end of the document is reached at once, and the trail of a comment
right below is one line shorter. -/
theorem Anchored.exists_leads (hAnchored : d.Anchored n comment) :
    ∃ passed place, d.comments.Leads comment passed place ∧ d.RunsDown n passed place := by
  induction hAnchored with
  | own hAnchor hNumber hText hPath hData =>
    subst hNumber
    have hRuns := RunsDown.data (firstDataFrom_self hData) hText hPath
    rw [List.Ico.eq_nil_of_le (Nat.le_succ _)] at hRuns
    exact ⟨_, _, .data hAnchor, hRuns⟩
  | line line hAnchor hNone hNumber hText hPath hData =>
    have hFirst := (firstDataFrom_self hData).above hNone
    rw [← hNumber] at hFirst hText hPath
    have hRuns := RunsDown.data hFirst hText hPath
    rw [List.Ico.eq_nil_of_le (Nat.le_of_eq hNumber)] at hRuns
    exact ⟨_, _, .data hAnchor, hRuns⟩
  | comment below hAnchor hNone hBelow _ hBelowNone _ ih =>
    obtain ⟨passed, place, hLeads, hRuns⟩ := ih
    obtain ⟨hNumber, hText⟩ := line_of_mem_comments hBelow
    have hLt := (List.getElem?_eq_some_iff.mp hText).1
    refine ⟨_, place, .comment hAnchor (get?_line_of_mem_comments hBelow) hLeads, ?_⟩
    rw [hNumber]
    exact hRuns.above hNone hBelowNone hLt
  | bottom hAnchor hNone hLast =>
    have hRest := none_from_above hNone fun m hm => dataLineAt?_of_length_le (hLast ▸ hm)
    have hRuns := RunsDown.bottom hRest
    rw [hLast, List.Ico.self_empty] at hRuns
    exact ⟨_, _, .bottom hAnchor, hRuns⟩

theorem runsDown_of_leads (hEntry : (n, comment) ∈ d.comments.entries)
    (hLeads : d.comments.Leads comment passed place) : d.RunsDown n passed place := by
  obtain ⟨others, other, hOther, hRuns⟩ := (anchored_of_mem_comments hEntry).exists_leads
  obtain ⟨rfl, rfl⟩ := hLeads.unique hOther
  exact hRuns

end Document

-- ---------------------------------------------------------------------------
-- In all that is reached
-- ---------------------------------------------------------------------------

/-- The comments of a document are all there, and the anchors of each lead to the
first row with data at or below it. -/
structure IndexedDocument.Traced (d : IndexedDocument) : Prop where
  /-- There is a comment for each row that is read as one, and for no other row. -/
  listed : ∀ n, n ∈ d.comments.numbers ↔
    ∃ text comment, d.textAt? n = some text ∧ Row.read n text = .comment comment
  /-- It is kept under the number of its line, with the text of its row. -/
  kept : ∀ n comment, d.comments.get? n = some comment →
    comment.line.number = n ∧ d.textAt? n = some comment.line.text
  /-- If it is anchored at a comment, that is the one on the next line. -/
  linked : ∀ n comment line, d.comments.get? n = some comment →
    comment.anchor? = some (.comment line) →
    line.number = n + 1 ∧ ∃ next, d.comments.get? (n + 1) = some next ∧ next.line = line
  /-- It has a trail. -/
  followed : ∀ n comment, d.comments.get? n = some comment →
    ∃ passed place, d.comments.Leads comment passed place
  /-- A trail to data passes all lines down to the first row with data, and ends there
  with the path of this row. -/
  data : ∀ n comment passed line, d.comments.get? n = some comment →
    d.comments.Leads comment passed (.data line) →
    d.toDocument.FirstDataFrom n line.number ∧ passed = List.Ico (n + 1) line.number ∧
      d.textAt? line.number = some line.text ∧ line.path? = d.pathAt? line.number ∧ line.path?.isSome
  /-- A trail to the end of the document passes all lines down to there. -/
  bottom : ∀ n comment passed, d.comments.get? n = some comment →
    d.comments.Leads comment passed .bottom → passed = List.Ico (n + 1) d.length
  /-- It leads there exactly if there is no row with data at or below it. -/
  bottom_iff : ∀ n comment passed place, d.comments.get? n = some comment →
    d.comments.Leads comment passed place →
    (place = .bottom ↔ ∀ m, n ≤ m → d.dataLineAt? m = none)

/-- The path of a row has no part in whether it is a comment. -/
theorem Document.exists_rowAt?_eq_comment_iff {d : Document} {n : Nat} :
    (∃ comment, d.rowAt? n = some (.comment comment)) ↔
      ∃ text comment, d.textAt? n = some text ∧ Row.read n text = .comment comment := by
  rw [rowAt?_eq]
  cases d.textAt? n with
  | none => simp
  | some text => cases hRead : Row.read n text <;> simp [hRead, Row.withPath]

/-- With an index that was made from the rows the comments of a document are traced. -/
theorem Document.traced_indexed (d : Document) : d.indexed.Traced := by
  constructor <;> simp only [comments_indexed, pathAt?_indexed, Collection.get?_eq_some_iff]
  case listed =>
    intro n
    rw [mem_numbers_comments_iff]
    exact exists_rowAt?_eq_comment_iff
  case kept =>
    intro n comment hEntry
    exact line_of_mem_comments hEntry
  case linked =>
    intro n comment line hEntry hAnchor
    obtain ⟨⟨below, hBelow, -, hLine⟩, hNumber, -⟩ := exists_below_of_anchor? hEntry hAnchor
    exact ⟨hNumber, below, hBelow, hLine⟩
  case followed =>
    intro n comment hEntry
    obtain ⟨passed, place, hLeads, -⟩ := (anchored_of_mem_comments hEntry).exists_leads
    exact ⟨passed, place, hLeads⟩
  case data =>
    intro n comment passed line hEntry hLeads
    cases runsDown_of_leads hEntry hLeads with
    | data hFirst hText hPath =>
      have hData : line.path?.isSome := by
        rw [← hPath, isSome_pathAt?]
        exact hFirst.2.1
      exact ⟨hFirst, rfl, hText, hPath.symm, hData⟩
  case bottom =>
    intro n comment passed hEntry hLeads
    cases runsDown_of_leads hEntry hLeads with
    | bottom => rfl
  case bottom_iff =>
    intro n comment passed place hEntry hLeads
    exact (runsDown_of_leads hEntry hLeads).place_eq_bottom_iff

/-- **Anchors lead to data.** After any changes to an opened document its comments are
those of the rows that are read as comments. The anchors of each one lead down line by
line to the first row with data at or below it, with the path of this row, and to the
end of the document exactly if there is no such row. -/
theorem anchors_lead_to_data (levelWidth : Nat) (opening : IndexedDocument.Opening)
    (edits : List IndexedDocument.Edit) :
    ((IndexedDocument.opened levelWidth opening).editAll edits).Traced := by
  have hFresh := (IndexedDocument.fresh_opened levelWidth opening).editAll edits
  rw [hFresh.eq_indexed]
  exact Document.traced_indexed _

/-- Two comments put in above an inline one: the top one leads past the blank one to its
line, and the comment at the bottom leads to the end of the document. -/
theorem anchors_lead_to_data_edited :
    ∃ (d : IndexedDocument) (top last : Comment) (line : Line),
      d = (IndexedDocument.opened 2 (.text "k: 1 # x\n# end\n".toList)).editAll
        [.insert 0 "".toList, .insert 0 "# a".toList] ∧
      d.rows = ["# a".toList, "".toList, "k: 1 # x".toList, "# end".toList] ∧
      d.comments.numbers = [0, 1, 2, 3] ∧
      d.comments.get? 0 = some top ∧ d.comments.Leads top [1] (.data line) ∧
      line.number = 2 ∧ line.path? = some ⟨[.key "k".toList]⟩ ∧
      d.toDocument.FirstDataFrom 0 2 ∧ d.pathAt? 2 = line.path? ∧
      d.comments.get? 3 = some last ∧ d.comments.Leads last [] .bottom ∧
      ∀ m, 3 ≤ m → d.dataLineAt? m = none := by
  let d := (IndexedDocument.opened 2 (.text "k: 1 # x\n# end\n".toList)).editAll
    [.insert 0 "".toList, .insert 0 "# a".toList]
  let line : Line :=
    { number := 2, text := "k: 1 # x".toList, entry := .ofData "k: 1".toList,
      path? := some ⟨[.key "k".toList]⟩ }
  let blank : Comment :=
    { line := .ofBlank 1 [], body := [], form := .blank, anchor? := some (.data line) }
  let top : Comment :=
    { line := .ofBlank 0 "# a".toList, body := " a".toList, form := .full,
      anchor? := some (.comment blank.line) }
  let last : Comment :=
    { line := .ofBlank 3 "# end".toList, body := " end".toList, form := .full,
      anchor? := some .bottom }
  have hTop : d.comments.get? 0 = some top := by decide
  have hBlank : d.comments.get? 1 = some blank := by decide
  have hLast : d.comments.get? 3 = some last := by decide
  have hTopLeads : d.comments.Leads top [blank.line.number] (.data line) :=
    .comment rfl hBlank (.data rfl)
  have hLastLeads : d.comments.Leads last [] .bottom := .bottom rfl
  have hTraced := anchors_lead_to_data 2 (.text "k: 1 # x\n# end\n".toList)
    [.insert 0 "".toList, .insert 0 "# a".toList]
  obtain ⟨hFirst, -, -, hPath, -⟩ := hTraced.data 0 top [1] line hTop hTopLeads
  exact ⟨d, top, last, line, rfl, by decide, by decide, hTop, hTopLeads, rfl, rfl, hFirst, hPath.symm,
    hLast, hLastLeads, (hTraced.bottom_iff 3 last [] .bottom hLast hLastLeads).mp rfl⟩

end Marginalia
