import Marginalia.Proofs.Margins

/-!
# Only the order of depths matters

A path follows from three things: which rows have data, what their steps can be,
and which of any two rows is shallower. How much shallower it is does not matter,
nor how wide a level is. So two documents whose rows compare in the same way have
the same paths, line by line.

Two cases of this are of use. If all rows with data are indented by whole multiples
of some number of spaces, then every width of a level up to that number tells the
multiples apart, and all these widths give the same paths. And a value has no part
in a path: a row may be given any other value behind its dash or its first colon,
as long as it stays an item or an entry.

## Results

* `Document.encloses_iff`, `Document.isEarlierItem_iff` — ancestry by comparing rows.
* `Document.Alike.pathTable_eq`   — documents whose rows compare alike have the same paths.
* `Document.alike_of_indentedBy`  — rows indented by whole multiples compare alike at every smaller width.
* `OutlineRow.ofText?_eq_of_revalued` — another value leaves the row of the outline.
* `index_rests_on_depth_order`    — what the index does not depend on.
-/

namespace Marginalia

namespace Document

-- ---------------------------------------------------------------------------
-- Ancestry by comparing rows
-- ---------------------------------------------------------------------------

/-- Rows `i` and `j` have data, and row `i` is shallower. -/
def Shallower (d : Document) (i j : Nat) : Prop :=
  ∃ own ∈ d.depthAt? i, ∃ other ∈ d.depthAt? j, own < other

instance (d : Document) (i j : Nat) : Decidable (d.Shallower i j) :=
  inferInstanceAs (Decidable (∃ own ∈ d.depthAt? i, ∃ other ∈ d.depthAt? j, own < other))

variable {d e : Document} {i j k n : Nat} {a b : Line}

theorem shallower_iff_lt (hi : d.dataLineAt? i = some a) (hj : d.dataLineAt? j = some b) :
    d.Shallower i j ↔ a.depth d.levelWidth < b.depth d.levelWidth := by
  rw [Shallower, depthAt?_of_some hi, depthAt?_of_some hj]
  simp

theorem encloses_iff :
    d.Encloses j n ↔ (d.dataLineAt? j).isSome ∧
      ∀ k ≤ n, j < k → (d.dataLineAt? k).isSome → d.Shallower j k := by
  constructor
  · rintro ⟨own, hOwn, hAll⟩
    refine ⟨?_, fun k hk hjk hData => ?_⟩
    · rw [← Option.isSome_map, ← depthAt?, hOwn]
      rfl
    · obtain ⟨line, hLine⟩ := Option.isSome_iff_exists.mp hData
      have hDepth := depthAt?_of_some hLine
      exact ⟨own, hOwn, _, hDepth, hAll k hk hjk _ hDepth⟩
  · rintro ⟨hData, hAll⟩
    obtain ⟨line, hLine⟩ := Option.isSome_iff_exists.mp hData
    refine ⟨_, depthAt?_of_some hLine, fun k hk hjk other hOther => ?_⟩
    obtain ⟨below, hBelow, rfl⟩ := Option.map_eq_some_iff.mp hOther
    have hShallower := hAll k hk hjk (by rw [hBelow]; rfl)
    exact (shallower_iff_lt hLine hBelow).mp hShallower

/-- An earlier item that row `j` continues is neither shallower nor deeper than row
`j`, and no row between the two is shallower than row `j`. -/
theorem isEarlierItem_iff (hj : d.dataLineAt? j = some a) :
    d.IsEarlierItem (a.depth d.levelWidth) j k ↔
      (∃ line ∈ d.dataLineAt? k, line.isItem) ∧ ¬ d.Shallower k j ∧ ¬ d.Shallower j k ∧
        ∀ l < j, k < l → ¬ d.Shallower l j := by
  constructor
  · rintro ⟨line, hLine, hItem, hDepth, hAll⟩
    refine ⟨⟨line, hLine, hItem⟩, ?_, ?_, fun l hl hkl hShallower => ?_⟩
    · rw [shallower_iff_lt hLine hj]
      omega
    · rw [shallower_iff_lt hj hLine]
      omega
    · obtain ⟨own, hOwn, other, hOther, hLt⟩ := hShallower
      have hLe := hAll l hl hkl own hOwn
      obtain rfl : _ = other := Option.some.inj ((depthAt?_of_some hj).symm.trans hOther)
      omega
  · rintro ⟨⟨line, hLine, hItem⟩, hNotAbove, hNotBelow, hAll⟩
    rw [shallower_iff_lt hLine hj] at hNotAbove
    rw [shallower_iff_lt hj hLine] at hNotBelow
    refine ⟨line, hLine, hItem, by omega, fun l hl hkl other hOther => ?_⟩
    exact Nat.le_of_not_lt fun hLt => hAll l hl hkl ⟨other, hOther, _, depthAt?_of_some hj, hLt⟩

-- ---------------------------------------------------------------------------
-- Rows that compare alike
-- ---------------------------------------------------------------------------

/-- The rows of two documents compare alike: a row has data if the other one has,
both are items or have the same key, and one row is shallower than another one in
both documents or in none. -/
structure Alike (d e : Document) : Prop where
  length_eq : d.length = e.length
  data_iff : ∀ n, (d.dataLineAt? n).isSome ↔ (e.dataLineAt? n).isSome
  step : ∀ n, ∀ a ∈ d.dataLineAt? n, ∀ b ∈ e.dataLineAt? n,
    a.isItem = b.isItem ∧ (a.isItem = false → a.key = b.key)
  shallower_iff : ∀ i j, d.Shallower i j ↔ e.Shallower i j

/-- Rows past the end compare alike, so only those that are there have to be
compared. -/
theorem alike_iff_forall_lt :
    d.Alike e ↔ d.length = e.length ∧
      (∀ n < d.length, ((d.dataLineAt? n).isSome ↔ (e.dataLineAt? n).isSome) ∧
        ∀ a ∈ d.dataLineAt? n, ∀ b ∈ e.dataLineAt? n,
          a.isItem = b.isItem ∧ (a.isItem = false → a.key = b.key)) ∧
      ∀ i < d.length, ∀ j < d.length, (d.Shallower i j ↔ e.Shallower i j) := by
  constructor
  · intro hAlike
    exact ⟨hAlike.length_eq, fun n _ => ⟨hAlike.data_iff n, hAlike.step n⟩,
      fun i _ j _ => hAlike.shallower_iff i j⟩
  · rintro ⟨hLength, hRows, hOrder⟩
    have hNone : ∀ n, ¬ n < d.length → d.dataLineAt? n = none ∧ e.dataLineAt? n = none := fun n hn =>
      ⟨dataLineAt?_of_length_le (Nat.le_of_not_lt hn),
        dataLineAt?_of_length_le (hLength ▸ Nat.le_of_not_lt hn)⟩
    refine ⟨hLength, fun n => ?_, fun n a ha => ?_, fun i j => ?_⟩
    · by_cases hn : n < d.length
      · exact (hRows n hn).1
      · rw [(hNone n hn).1, (hNone n hn).2]
    · by_cases hn : n < d.length
      · exact (hRows n hn).2 a ha
      · rw [(hNone n hn).1] at ha
        cases ha
    · by_cases hi : i < d.length
      · by_cases hj : j < d.length
        · exact hOrder i hi j hj
        · simp [Shallower, depthAt?, hNone j hj]
      · simp [Shallower, depthAt?, hNone i hi]

instance (d e : Document) : Decidable (d.Alike e) :=
  decidable_of_iff' _ alike_iff_forall_lt

theorem Alike.none_or_some (hAlike : d.Alike e) (n : Nat) :
    d.dataLineAt? n = none ∧ e.dataLineAt? n = none ∨
      ∃ a b, d.dataLineAt? n = some a ∧ e.dataLineAt? n = some b := by
  have hData := hAlike.data_iff n
  cases hd : d.dataLineAt? n <;> cases he : e.dataLineAt? n <;> simp_all

theorem Alike.encloses_iff (hAlike : d.Alike e) (j n : Nat) : d.Encloses j n ↔ e.Encloses j n := by
  rw [Document.encloses_iff, Document.encloses_iff]
  simp only [hAlike.data_iff, hAlike.shallower_iff]

theorem Alike.exists_item_iff (hAlike : d.Alike e) (k : Nat) :
    (∃ line ∈ d.dataLineAt? k, line.isItem) ↔ ∃ line ∈ e.dataLineAt? k, line.isItem := by
  rcases hAlike.none_or_some k with ⟨hd, he⟩ | ⟨a, b, hd, he⟩
  · simp [hd, he]
  · have hItem := (hAlike.step k a hd b he).1
    simp [hd, he, hItem]

theorem Alike.itemPosition_eq (hAlike : d.Alike e) (hd : d.dataLineAt? j = some a)
    (he : e.dataLineAt? j = some b) :
    d.itemPosition (a.depth d.levelWidth) j = e.itemPosition (b.depth e.levelWidth) j := by
  apply List.countP_congr
  intro k _
  rw [decide_eq_true_eq, decide_eq_true_eq, isEarlierItem_iff hd, isEarlierItem_iff he,
    hAlike.exists_item_iff, hAlike.shallower_iff, hAlike.shallower_iff]
  simp only [hAlike.shallower_iff]

theorem Alike.stepAt?_eq (hAlike : d.Alike e) : d.stepAt? = e.stepAt? := by
  funext n
  rcases hAlike.none_or_some n with ⟨hd, he⟩ | ⟨a, b, hd, he⟩
  · rw [stepAt?, stepAt?, hd, he, Option.map_none, Option.map_none]
  · obtain ⟨hItem, hKey⟩ := hAlike.step n a hd b he
    rw [stepAt?, stepAt?, hd, he, Option.map_some, Option.map_some, hAlike.itemPosition_eq hd he,
      ← hItem]
    by_cases hIs : a.isItem = true
    · rw [if_pos hIs, if_pos hIs]
    · rw [if_neg hIs, if_neg hIs, hKey (Bool.eq_false_iff.mpr hIs)]

/-- **Documents whose rows compare alike have the same paths.** -/
theorem Alike.pathTable_eq (hAlike : d.Alike e) : d.pathTable = e.pathTable := by
  have hEnclosing : ∀ n, d.enclosing n = e.enclosing n := fun n =>
    List.filter_congr fun j _ => decide_eq_decide.mpr (hAlike.encloses_iff j n)
  have hPath : ∀ n, d.pathAt? n = e.pathAt? n := by
    intro n
    rw [pathAt?_eq_ancestry, pathAt?_eq_ancestry, ancestry, ancestry, hEnclosing, hAlike.stepAt?_eq]
    rcases hAlike.none_or_some n with ⟨hd, he⟩ | ⟨a, b, hd, he⟩
    · rw [hd, he]
    · rw [hd, he, Option.map_some, Option.map_some]
  rw [pathTable_eq_range, pathTable_eq_range, hAlike.length_eq]
  simp only [hPath]

end Document

-- ---------------------------------------------------------------------------
-- Rows indented by whole multiples
-- ---------------------------------------------------------------------------

namespace Text

/-- The spaces and tabs at the start of the text are a whole multiple of `unit`
spaces, not more than a 64-bit word can count, as no text in memory has more. -/
def IndentedBy (unit : Nat) (t : Text) : Prop :=
  ∃ count, count * unit < sizeLimit ∧ t.takeWhile isIndent = List.replicate (count * unit) ' '

theorem columns_takeWhile (level : Nat) (t : Text) :
    columns level (t.takeWhile isIndent) = columns level t := by
  induction t with
  | nil => rfl
  | cons c rest ih =>
    by_cases hc : isIndent c
    · rw [List.takeWhile_cons, if_pos hc, columns, columns, ih]
    · rw [List.takeWhile_cons, if_neg hc]
      rw [isIndent_iff, not_or] at hc
      rw [columns, columns, if_neg hc.1, if_neg hc.2]

theorem columns_replicate (level : Nat) {count : Nat} (hCount : count < sizeLimit) :
    columns level (List.replicate count ' ') = count := by
  induction count with
  | zero => rfl
  | succ count ih =>
    rw [List.replicate_succ, columns, if_pos rfl, ih (Nat.lt_of_succ_lt hCount), Nat.add_comm,
      Nat.mod_eq_of_lt hCount]

theorem IndentedBy.exists_depth {unit : Nat} {t : Text} (hIndent : t.IndentedBy unit) :
    ∃ count, ∀ levelWidth, t.depth levelWidth = count * unit / max 1 levelWidth := by
  obtain ⟨count, hBound, hCount⟩ := hIndent
  refine ⟨count, fun levelWidth => ?_⟩
  rw [depth, ← columns_takeWhile, hCount, columns_replicate _ hBound]

end Text

namespace Document

/-- Whole multiples stay apart when they are divided by something smaller. -/
theorem multiple_div_lt_iff {unit width : Nat} (hPos : 0 < width) (hLe : width ≤ unit) (m n : Nat) :
    m * unit / width < n * unit / width ↔ m < n := by
  constructor
  · intro hLt
    by_contra hNot
    have hMul : n * unit ≤ m * unit := Nat.mul_le_mul_right unit (Nat.le_of_not_lt hNot)
    have := Nat.div_le_div_right (c := width) hMul
    omega
  · intro hLt
    have hNext : m * unit + width ≤ n * unit :=
      calc m * unit + width ≤ m * unit + unit := Nat.add_le_add_left hLe _
        _ = (m + 1) * unit := (Nat.succ_mul m unit).symm
        _ ≤ n * unit := Nat.mul_le_mul_right unit hLt
    calc m * unit / width < m * unit / width + 1 := Nat.lt_succ_self _
      _ = (m * unit + width) / width := (Nat.add_div_right _ hPos).symm
      _ ≤ n * unit / width := Nat.div_le_div_right hNext

/-- The line of data of a row has the text of the row. -/
theorem text_of_dataLineAt? {d : Document} {n : Nat} {line : Line} (hLine : d.dataLineAt? n = some line) :
    d.textAt? n = some line.text ∧ (Row.read n line.text).hasData := by
  obtain ⟨text, hText, hData⟩ := Option.bind_eq_some_iff.mp hLine
  have hSame : line.text = text := by
    rw [← Row.line_of_dataLine? hData, Row.text_read]
  rw [hSame, Row.hasData, hData]
  exact ⟨hText, rfl⟩

/-- **Rows indented by whole multiples compare alike at every smaller width.** -/
theorem alike_of_indentedBy {rows : List Text} {unit width other : Nat} (hUnit : 1 ≤ unit)
    (hRows : ∀ text ∈ rows, (Row.read 0 text).hasData → text.IndentedBy unit) (hWidth : width ≤ unit)
    (hOther : other ≤ unit) : (ofRows width rows).Alike (ofRows other rows) := by
  have hCount : ∀ n line, (ofRows width rows).dataLineAt? n = some line →
      ∃ count, ∀ levelWidth, line.depth levelWidth = count * unit / max 1 levelWidth := by
    intro n line hLine
    obtain ⟨hText, hData⟩ := text_of_dataLineAt? hLine
    rw [← OutlineRow.isSome_ofText? 0, OutlineRow.isSome_ofText? 0 0] at hData
    exact (hRows line.text (List.mem_of_getElem? hText) hData).exists_depth
  refine ⟨rfl, fun n => Iff.rfl, fun n a ha b hb => ?_, fun i j => ?_⟩
  · obtain rfl : a = b := Option.some.inj (ha.symm.trans hb)
    exact ⟨rfl, fun _ => rfl⟩
  · have hSame : ∀ n, (ofRows other rows).dataLineAt? n = (ofRows width rows).dataLineAt? n :=
      fun _ => rfl
    cases hi : (ofRows width rows).dataLineAt? i with
    | none => simp [Shallower, depthAt?, hSame, hi]
    | some a =>
      cases hj : (ofRows width rows).dataLineAt? j with
      | none => simp [Shallower, depthAt?, hSame, hj]
      | some b =>
        obtain ⟨m, hm⟩ := hCount i a hi
        obtain ⟨n, hn⟩ := hCount j b hj
        rw [shallower_iff_lt hi hj, shallower_iff_lt ((hSame i).trans hi) ((hSame j).trans hj), hm, hn,
          hm, hn]
        show m * unit / max 1 width < n * unit / max 1 width ↔
          m * unit / max 1 other < n * unit / max 1 other
        rw [multiple_div_lt_iff (by omega) (by omega), multiple_div_lt_iff (by omega) (by omega)]

end Document

-- ---------------------------------------------------------------------------
-- Values
-- ---------------------------------------------------------------------------

namespace Text

/-- `front` ends with the dash of an item or with the first colon of an entry, and
`value` is what may follow it. -/
inductive HasValue : Text → Text → Prop
  | item {lead value : Text} (hLead : ∀ c ∈ lead, isIndent c)
      (hValue : value.head?.all isIndent = true) : HasValue (lead ++ ['-']) value
  | entry {name value : Text} (hName : ':' ∉ name) (hValue : Entry.hasKeyColon (':' :: value)) :
      HasValue (name ++ [':']) value

/-- What may stand behind the data of a row: nothing, or an inline comment. -/
inductive Closes : Text → Prop
  | nothing : Closes []
  | comment {c : Char} (hc : isIndent c) (body : Text) : Closes (c :: marker :: body)

/-- The two rows are the same, or differ only in the value behind the dash or the
first colon of their data. -/
inductive Revalued : Text → Text → Prop
  | same (t : Text) : Revalued t t
  | value {front value other tail : Text} (hValue : front.HasValue value) (hOther : front.HasValue other)
      (hMarker : (front ++ value).splitAtMarker = none)
      (hOtherMarker : (front ++ other).splitAtMarker = none) (hTail : tail.Closes) :
      Revalued (front ++ value ++ tail) (front ++ other ++ tail)

variable {front value other tail : Text}

theorem HasValue.not_allBlank (hValue : front.HasValue value) : ¬ front.allBlank := by
  have hDash : isBlank '-' = false := by decide
  have hColon : isBlank ':' = false := by decide
  cases hValue <;> simp [allBlank, hDash, hColon]

/-- Trimming data takes nothing away around its dash or colon. -/
theorem HasValue.trim (hValue : front.HasValue value) :
    (front ++ value).trim = front.trim ++ stripEnd isBlank value ∧
      front.trim.HasValue (stripEnd isBlank value) := by
  have hNil : stripEnd isBlank [] = [] := rfl
  cases hValue with
  | @item lead value hLead hValue =>
    have hDash : isBlank '-' = false := by decide
    have hStart : stripStart isBlank lead = [] :=
      (stripStart_eq_nil_iff isBlank lead).mpr fun c hc => isBlank_of_isIndent (hLead c hc)
    rw [List.append_assoc, List.singleton_append, trim_append_cons hDash, trim_append_cons hDash, hStart,
      hNil]
    refine ⟨rfl, @HasValue.item [] _ (by simp) ?_⟩
    -- what is left of the value starts as the value does
    have hPrefix : stripEnd isBlank value <+: value := List.rdropWhile_prefix isBlank value
    obtain ⟨more, hMore⟩ := hPrefix
    cases hLeft : stripEnd isBlank value with
    | nil => rfl
    | cons c rest =>
      rw [hLeft] at hMore
      rw [← hMore] at hValue
      exact hValue
  | @entry name value hName hValue =>
    have hColon : isBlank ':' = false := by decide
    have hKey := Entry.hasKeyColon_trim hValue
    have hOwn := trim_append_cons hColon [] value
    rw [List.nil_append] at hOwn
    rw [hOwn] at hKey
    rw [List.append_assoc, List.singleton_append, trim_append_cons hColon, trim_append_cons hColon, hNil]
    refine ⟨by simp, .entry ?_ hKey⟩
    exact fun hMem => hName ((List.dropWhile_suffix isBlank).subset hMem)

end Text

namespace Entry

open Text

variable {front value : Text}

/-- A colon settles whether data is an item before anything that follows it. -/
theorem isItem_ofData_append_of_colon (name value : Text) :
    (ofData (name ++ [':'] ++ value)).isItem = (ofData (name ++ [':'])).isItem := by
  have hColon : isIndent ':' = false := by decide
  rw [isItem_ofData, isItem_ofData, List.append_assoc, List.singleton_append,
    stripStart_append_cons hColon, stripStart_append_cons hColon]
  cases stripStart isIndent name with
  | nil => rfl
  | cons c rest =>
    have hHead : (rest ++ ':' :: value).head? = (rest ++ [':']).head? := by cases rest <;> rfl
    rw [List.cons_append, List.cons_append, afterDash?, afterDash?, hHead]
    split <;> rfl

/-- **A value has no part in the step**: data is an item, or has its key, as far as
its dash or its first colon goes. -/
theorem sameStep_of_hasValue (hValue : front.HasValue value) :
    (ofData (front ++ value)).SameStep (ofData front) := by
  cases hValue with
  | @item lead value hLead hValue =>
    have hLone : ofData ['-'] = .item [] := ofData_dash_cons rfl
    rw [List.append_assoc, ofData_append_of_indents hLead, ofData_append_of_indents hLead,
      List.singleton_append, ofData_dash_cons hValue, hLone]
    exact ⟨rfl, rfl⟩
  | @entry name value hName hValue =>
    have hSame := isItem_ofData_append_of_colon name value
    refine ⟨hSame, ?_⟩
    cases hItem : (ofData (name ++ [':'])).isItem with
    | true => rw [key_of_isItem (hSame.trans hItem), key_of_isItem hItem]
    | false =>
      have hFront : hasKeyColon (name ++ [':']) := by
        rw [hasKeyColon_append_of_not_mem hName]
        rfl
      have hWhole : hasKeyColon (name ++ ':' :: value) := by
        rwa [hasKeyColon_append_of_not_mem hName]
      rw [ofData_of_not_isItem (hSame.trans hItem), ofData_of_not_isItem hItem, List.append_assoc,
        List.singleton_append, if_pos hFront, if_pos hWhole, splitAtColon_append_of_not_mem hName,
        splitAtColon_append_of_not_mem hName]
      rfl

end Entry

namespace OutlineRow

variable {front value tail : Text}

/-- The row of the outline follows from what stands before the value and from
whether a comment closes the row. -/
theorem ofText?_of_hasValue (hValue : front.HasValue value)
    (hMarker : (front ++ value).splitAtMarker = none) (hTail : tail.Closes) (levelWidth : Nat) :
    ofText? levelWidth (front ++ value ++ tail) = some (ofLine levelWidth
      (.ofData 0 front (if tail = [] then front else front.trim))) := by
  have hBlank : ¬ (front ++ value).allBlank := by
    rw [Text.allBlank_append]
    simp [hValue.not_allBlank]
  have hDepth : ∀ more : Text,
      Text.depth levelWidth (front ++ value ++ more) = Text.depth levelWidth front := by
    intro more
    rw [List.append_assoc]
    exact Text.depth_append_of_not_allBlank hValue.not_allBlank levelWidth _
  cases hTail with
  | nothing =>
    have hStep := Entry.sameStep_of_hasValue hValue
    have hForm := (Text.form_eq_data_iff (front ++ value)).mpr ⟨hBlank, hMarker⟩
    rw [List.append_nil, ofText?_of_data hForm, if_pos rfl, Option.some.injEq, ofLine_eq_iff]
    exact ⟨hStep.isItem, hStep.key, List.append_nil (front ++ value) ▸ hDepth []⟩
  | @comment c hc body =>
    obtain ⟨hTrim, hLeft⟩ := hValue.trim
    have hStep := Entry.sameStep_of_hasValue hLeft
    have hForm : (front ++ value ++ c :: marker :: body).form = .inline (front ++ value ++ [c]) body := by
      rw [Text.form_eq_inline_iff, Text.allBlank_append]
      exact ⟨by simp [hBlank], Text.splitAtMarkerFrom_append_of_none hMarker hc body⟩
    have hData : (front ++ value ++ [c]).trim = front.trim ++ Text.stripEnd isBlank value := by
      rw [← hTrim]
      exact Text.trim_append_of_all (by simpa using isBlank_of_isIndent hc) _
    rw [ofText?_of_inline hForm, hData, if_neg (List.cons_ne_nil _ _), Option.some.injEq, ofLine_eq_iff]
    exact ⟨hStep.isItem, hStep.key, hDepth _⟩

/-- **Another value leaves the row of the outline.** -/
theorem ofText?_eq_of_revalued {t other : Text} (hSame : t.Revalued other) (levelWidth : Nat) :
    ofText? levelWidth t = ofText? levelWidth other := by
  cases hSame with
  | same => rfl
  | value hValue hOther hMarker hOtherMarker hTail =>
    rw [ofText?_of_hasValue hValue hMarker hTail, ofText?_of_hasValue hOther hOtherMarker hTail]

end OutlineRow

/-- Rows that differ in values only have the same paths. -/
theorem Document.pathTable_eq_of_revalued {rows others : List Text}
    (hRows : List.Forall₂ Text.Revalued rows others) (levelWidth : Nat) :
    (ofRows levelWidth rows).pathTable = (ofRows levelWidth others).pathTable := by
  have hOutline : (ofRows levelWidth rows).outline = (ofRows levelWidth others).outline := by
    show rows.map (OutlineRow.ofText? levelWidth) = others.map (OutlineRow.ofText? levelWidth)
    induction hRows with
    | nil => rfl
    | cons hRow _ ih =>
      rw [List.map_cons, List.map_cons, ih, OutlineRow.ofText?_eq_of_revalued hRow]
  rw [pathTable, pathTable, paths_congr hOutline]

/-- **The index rests on the order of the depths.** Documents whose rows compare
alike have the same index, whatever the widths of their levels. So rows indented by
whole multiples of some number of spaces have the same index for every width up to
that number, and other values change no path. -/
theorem index_rests_on_depth_order :
    (∀ d e : Document, d.Alike e → d.indexed.index = e.indexed.index) ∧
    (∀ (rows : List Text) (unit : Nat), 1 ≤ unit →
      (∀ text ∈ rows, (Row.read 0 text).hasData → text.IndentedBy unit) →
      ∀ width other, width ≤ unit → other ≤ unit →
        (IndexedDocument.ofRows width rows).index = (IndexedDocument.ofRows other rows).index) ∧
    (∀ (rows others : List Text), List.Forall₂ Text.Revalued rows others → ∀ levelWidth,
      (IndexedDocument.ofRows levelWidth rows).index
        = (IndexedDocument.ofRows levelWidth others).index) := by
  refine ⟨fun d e hAlike => hAlike.pathTable_eq, fun rows unit hUnit hRows width other hWidth hOther => ?_,
    fun rows others hRows levelWidth => Document.pathTable_eq_of_revalued hRows levelWidth⟩
  exact (Document.alike_of_indentedBy hUnit hRows hWidth hOther).pathTable_eq

/-- Rows with levels of four spaces and rows with levels of a tab; the former with
every width up to four; and the former with a value quoted in another way. -/
theorem index_rests_on_depth_order_tabs :
    ∃ d e : Document,
      d.rows = ["a: 1".toList, "".toList, "    b: \"x\" # y".toList, "        - c".toList] ∧
      e.rows = ["a: 2".toList, "# n".toList, "\tb: z".toList, "\t\t-".toList] ∧
      d.Alike e ∧ d.indexed.index = e.indexed.index ∧
      (∀ text ∈ d.rows, (Row.read 0 text).hasData → text.IndentedBy 4) ∧
      (IndexedDocument.ofRows 1 d.rows).index = (IndexedDocument.ofRows 4 d.rows).index ∧
      List.Forall₂ Text.Revalued d.rows
        ["a: 1".toList, "".toList, "    b: 'x' # y".toList, "        - c".toList] ∧
      (IndexedDocument.ofRows 4 d.rows).index
        = (IndexedDocument.ofRows 4
            ["a: 1".toList, "".toList, "    b: 'x' # y".toList, "        - c".toList]).index := by
  have hAlike : (Document.ofRows 4 ["a: 1".toList, "".toList, "    b: \"x\" # y".toList,
      "        - c".toList]).Alike
      (Document.ofRows 3 ["a: 2".toList, "# n".toList, "\tb: z".toList, "\t\t-".toList]) := by decide
  have hIndent : ∀ text ∈ (["a: 1".toList, "".toList, "    b: \"x\" # y".toList,
      "        - c".toList] : List Text), (Row.read 0 text).hasData → text.IndentedBy 4 := by
    simp only [List.forall_mem_cons]
    exact ⟨fun _ => ⟨0, by decide, by decide⟩, fun _ => ⟨0, by decide, by decide⟩,
      fun _ => ⟨1, by decide, by decide⟩, fun _ => ⟨2, by decide, by decide⟩, by simp⟩
  have hQuoted : Text.Revalued "    b: \"x\" # y".toList "    b: 'x' # y".toList :=
    @Text.Revalued.value "    b:".toList " \"x\"".toList " 'x'".toList " # y".toList
      (@Text.HasValue.entry "    b".toList _ (by decide) (by decide))
      (@Text.HasValue.entry "    b".toList _ (by decide) (by decide)) (by decide) (by decide)
      (.comment (by decide) " y".toList)
  have hValues : List.Forall₂ Text.Revalued
      ["a: 1".toList, "".toList, "    b: \"x\" # y".toList, "        - c".toList]
      ["a: 1".toList, "".toList, "    b: 'x' # y".toList, "        - c".toList] :=
    .cons (.same _) (.cons (.same _) (.cons hQuoted (.cons (.same _) .nil)))
  obtain ⟨hCompared, hMultiples, hRevalued⟩ := index_rests_on_depth_order
  exact ⟨_, _, rfl, rfl, hAlike, hCompared _ _ hAlike, hIndent,
    hMultiples _ 4 (by decide) hIndent 1 4 (by decide) (by decide), hValues, hRevalued _ _ hValues 4⟩

end Marginalia
