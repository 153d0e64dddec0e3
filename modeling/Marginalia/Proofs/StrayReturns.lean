import Marginalia.Proofs.Classification
import Marginalia.Proofs.Margins
import Mathlib.Data.List.Infix

/-!
# Stray carriage returns

In a text with mixed line endings the carriage returns before line feeds belong to
the rows. Behind white space, behind a comment or behind words they say nothing,
and a row reads without one as it reads with it. But a row may say something only
because it ends where it does: a dash alone is an item, and a colon makes a key of
what stands before it at the end of the row as it does before a space. A carriage
return behind such a row is neither a space nor the end, so the row has another
step with it than without it.

No row is deeper or shallower for a carriage return. So the first row that has
another step has another path as well, and the index stays the same exactly if no
row has.

## Results

* `Outline.eq_of_pathsBelow_eq`      — rows of the same depths with the same paths are the same.
* `Document.pathTable_eq_iff_outline` — so is the index exactly if the outline is.
* `Entry.hasKeyColon_iff`            — which colons make a key.
* `Entry.sameStep_return_iff`        — when data keeps its step without a carriage return.
* `OutlineRow.ofText?_return_eq_iff` — when a row keeps its place in the outline.
* `stray_returns_keep_index_iff`     — when an index is kept without carriage returns.
-/

namespace Marginalia

-- ---------------------------------------------------------------------------
-- Outlines of the same depths
-- ---------------------------------------------------------------------------

/-- Rows of the same depths below the same rows are the same if their paths are. By
induction from the top: where two rows differ, the last steps of their paths do. -/
theorem Outline.eq_of_pathsBelow_eq {above : List OutlineRow} {rows others : List (Option OutlineRow)}
    (hDepths : rows.map (Option.map OutlineRow.depth) = others.map (Option.map OutlineRow.depth))
    (hPaths : pathsBelow above rows = pathsBelow above others) : rows = others := by
  induction rows generalizing above others with
  | nil => exact (List.map_eq_nil_iff.mp hDepths.symm).symm
  | cons row? rest ih =>
    cases others with
    | nil => cases hDepths
    | cons other? more =>
      obtain ⟨hDepth, hRestDepths⟩ := List.cons.inj hDepths
      rw [pathsBelow_cons, pathsBelow_cons] at hPaths
      obtain ⟨hPath, hRestPaths⟩ := List.cons.inj hPaths
      obtain rfl : row? = other? := by
        cases row? with
        | none => exact (Option.map_eq_none_iff.mp hDepth.symm).symm
        | some row =>
          obtain ⟨other, rfl, hOther⟩ := Option.map_eq_some_iff.mp hDepth.symm
          have hStep := (Path.child_inj.mp (Option.some.inj hPath)).2
          rw [OutlineRow.eq_of_step_eq hOther.symm hStep]
      rw [ih hRestDepths hRestPaths]

namespace Document

/-- Documents of the same length with the same index have the same paths. -/
theorem paths_eq_of_pathTable_eq {d e : Document} (hLength : d.rows.length = e.rows.length)
    (hTable : d.pathTable = e.pathTable) : d.paths = e.paths := by
  apply List.ext_getElem (by rw [length_paths, length_paths, hLength])
  intro n hd he
  have hPath : d.pathAt? n = e.pathAt? n := by
    ext p
    rw [← mem_pathTable_iff, hTable, mem_pathTable_iff]
  rwa [pathAt?, pathAt?, List.getElem?_eq_getElem hd, List.getElem?_eq_getElem he, Option.join_some,
    Option.join_some] at hPath

/-- **Documents whose rows have the same depths have the same index exactly if they
have the same outline.** -/
theorem pathTable_eq_iff_outline {d e : Document}
    (hDepths : d.outline.map (Option.map OutlineRow.depth) = e.outline.map (Option.map OutlineRow.depth)) :
    d.pathTable = e.pathTable ↔ d.outline = e.outline := by
  constructor
  · intro hTable
    have hLength : d.rows.length = e.rows.length := by
      have := congrArg List.length hDepths
      rwa [List.length_map, List.length_map, outline, outline, List.length_map, List.length_map] at this
    exact Outline.eq_of_pathsBelow_eq hDepths (paths_eq_of_pathTable_eq hLength hTable)
  · intro hOutline
    rw [pathTable, paths_congr hOutline, pathTable]

end Document

-- ---------------------------------------------------------------------------
-- Data with a carriage return at its end
-- ---------------------------------------------------------------------------

namespace Entry

/-- A colon makes a key before a space or at the end. -/
theorem hasKeyColon_iff (t : Text) : hasKeyColon t ↔ [':', ' '] <:+: t ∨ [':'] <:+ t := by
  induction t with
  | nil => simp [hasKeyColon]
  | cons c rest ih =>
    have hHere : (c == ':' && rest.head?.all (· == ' ')) = true ↔
        [':', ' '] <+: c :: rest ∨ [':'] = c :: rest := by
      rw [List.cons_prefix_cons]
      cases rest <;> simp [@eq_comm _ ':', @eq_comm _ ' ']
    rw [hasKeyColon, Bool.or_eq_true, ih, hHere, List.infix_cons_iff, List.suffix_cons_iff]
    tauto

/-- In front of a carriage return only a colon before a space makes a key. -/
theorem hasKeyColon_return_iff (t : Text) : hasKeyColon (t ++ ['\r']) ↔ [':', ' '] <:+: t := by
  have hColon : ¬ [':'] <:+ t ++ ['\r'] := by
    rintro ⟨front, hFront⟩
    simpa using congrArg List.getLast? hFront
  have hSpace : ¬ [':', ' '] <:+ t ++ ['\r'] := by
    rintro ⟨front, hFront⟩
    simpa using congrArg List.getLast? hFront
  rw [hasKeyColon_iff, List.infix_concat_iff]
  tauto

end Entry

namespace Text

variable {t before body : Text}

/-- A row of data that says something only because it ends where it does: a lone
dash, or an entry with a key that only the colon at its end makes. -/
structure HangsOnEnd (t : Text) : Prop where
  form : t.form = .data
  ends : stripStart isIndent t = ['-'] ∨
    ((Entry.ofData t).isItem = false ∧ [':'] <:+ t ∧ ¬ [':', ' '] <:+: t ∧ (Entry.ofData t).key ≠ [])

instance (t : Text) : Decidable t.HangsOnEnd :=
  decidable_of_iff (t.form = .data ∧ (stripStart isIndent t = ['-'] ∨
      ((Entry.ofData t).isItem = false ∧ [':'] <:+ t ∧ ¬ [':', ' '] <:+: t ∧ (Entry.ofData t).key ≠ [])))
    ⟨fun h => ⟨h.1, h.2⟩, fun h => ⟨h.form, h.ends⟩⟩

theorem allBlank_return (t : Text) : (t ++ ['\r']).allBlank = t.allBlank := by
  rw [allBlank_append]
  exact Bool.and_true _

/-- A carriage return behind a text is no marker. -/
theorem splitAtMarker_return_of_none (hSplit : t.splitAtMarker = none) :
    (t ++ ['\r']).splitAtMarker = none := by
  rw [splitAtMarker_eq_none_iff] at hSplit ⊢
  intro before body hMarked
  have hText := hMarked.eq_append
  rcases List.eq_nil_or_concat body with rfl | ⟨front, c, rfl⟩
  · simpa [marker] using congrArg List.getLast? hText
  · rw [List.concat_eq_append, ← List.cons_append, ← List.append_assoc] at hText
    exact hSplit before front ⟨(List.append_inj' hText rfl).1, hMarked.delimited⟩

theorem form_return_of_data (hForm : t.form = .data) : (t ++ ['\r']).form = .data := by
  obtain ⟨hBlank, hSplit⟩ := (form_eq_data_iff t).mp hForm
  rw [form_eq_data_iff, allBlank_return]
  exact ⟨hBlank, splitAtMarker_return_of_none hSplit⟩

theorem form_return_of_full (hForm : t.form = .full body) :
    (t ++ ['\r']).form = .full (body ++ ['\r']) := by
  obtain ⟨hBlank, before, hBefore, hSplit⟩ := (form_eq_full_iff t body).mp hForm
  rw [form_eq_full_iff, allBlank_return]
  exact ⟨hBlank, before, hBefore, splitAtMarkerFrom_append_of_some hSplit _⟩

end Text

namespace Entry

variable {t : Text}

/-- A carriage return keeps a lone dash from being an item, and no other data. -/
theorem isItem_return_iff (hBlank : ¬ t.allBlank) :
    (ofData (t ++ ['\r'])).isItem ↔ (ofData t).isItem ∧ Text.stripStart isIndent t ≠ ['-'] := by
  have hNe : ¬ (Text.stripStart isIndent t).isEmpty := by
    intro hEmpty
    have hAll := (Text.stripStart_eq_nil_iff isIndent t).mp (List.isEmpty_iff.mp hEmpty)
    exact hBlank (List.all_eq_true.mpr fun c hc => isBlank_of_isIndent (hAll c hc))
  have hStart : Text.stripStart isIndent (t ++ ['\r']) = Text.stripStart isIndent t ++ ['\r'] := by
    rw [Text.stripStart, List.dropWhile_append, ← Text.stripStart, if_neg hNe]
  have hReturn : ∀ c ∈ ['\r'], isBlank c := fun c hc => List.mem_singleton.mp hc ▸ rfl
  rw [isItem_ofData, isItem_ofData, hStart, isSome_afterDash?_append hReturn]
  simp [isIndent]

/-- What is no item keeps its step without a carriage return, unless its key is one by
a colon at the end. -/
theorem sameStep_return_iff_of_not_isItem (hIs : (ofData t).isItem = false)
    (hReturnIs : (ofData (t ++ ['\r'])).isItem = false) :
    (ofData (t ++ ['\r'])).SameStep (ofData t) ↔
      ¬ ([':'] <:+ t ∧ ¬ [':', ' '] <:+: t ∧ (ofData t).key ≠ []) := by
  have hReturn := ofData_of_not_isItem hReturnIs
  by_cases hSpace : [':', ' '] <:+: t
  · -- the colon before a space makes the key with and without the carriage return
    have hKey : hasKeyColon t := (hasKeyColon_iff t).mpr (.inl hSpace)
    rw [if_pos ((hasKeyColon_return_iff t).mpr hSpace),
      splitAtColon_append_of_mem (mem_of_hasKeyColon hKey)] at hReturn
    rw [hReturn, ofData_of_not_isItem hIs, if_pos hKey]
    exact iff_of_true ⟨rfl, rfl⟩ fun hColon => hColon.2.1 hSpace
  · rw [if_neg (mt (hasKeyColon_return_iff t).mp hSpace)] at hReturn
    have hSame : (ofData (t ++ ['\r'])).SameStep (ofData t) ↔ (ofData t).key = [] := by
      rw [hReturn]
      exact ⟨fun hStep => hStep.key.symm, fun hKey => ⟨hIs.symm, hKey.symm⟩⟩
    rw [hSame]
    by_cases hColon : [':'] <:+ t
    · simp [hColon, hSpace]
    · have hNoKey : ¬ hasKeyColon t := fun hKey => ((hasKeyColon_iff t).mp hKey).elim hSpace hColon
      rw [ofData_of_not_isItem hIs, if_neg hNoKey]
      exact iff_of_true rfl fun hEnd => hColon hEnd.1

/-- **When data keeps its step without a carriage return.** -/
theorem sameStep_return_iff (hForm : t.form = .data) :
    (ofData (t ++ ['\r'])).SameStep (ofData t) ↔ ¬ t.HangsOnEnd := by
  have hItem := isItem_return_iff ((Text.form_eq_data_iff t).mp hForm).1
  by_cases hDash : Text.stripStart isIndent t = ['-']
  · have hIs : (ofData t).isItem := by
      rw [isItem_ofData, hDash]
      rfl
    refine iff_of_false (fun hSame => ?_) (not_not_intro ⟨hForm, .inl hDash⟩)
    exact (hItem.mp (hSame.isItem.trans hIs)).2 hDash
  · have hSameItem : (ofData (t ++ ['\r'])).isItem = (ofData t).isItem := by
      rw [Bool.eq_iff_iff, hItem]
      exact and_iff_left hDash
    cases hIs : (ofData t).isItem with
    | true =>
      rw [hIs] at hSameItem
      refine iff_of_true ⟨by rw [hIs, hSameItem], by rw [key_of_isItem hIs, key_of_isItem hSameItem]⟩ ?_
      rintro ⟨-, hAlone | ⟨hNot, -⟩⟩
      · exact hDash hAlone
      · rw [hIs] at hNot
        cases hNot
    | false =>
      have hHangs : t.HangsOnEnd ↔ [':'] <:+ t ∧ ¬ [':', ' '] <:+: t ∧ (ofData t).key ≠ [] :=
        ⟨fun hHangs => (hHangs.ends.resolve_left hDash).2, fun hColon => ⟨hForm, .inr ⟨hIs, hColon⟩⟩⟩
      rw [hHangs]
      exact sameStep_return_iff_of_not_isItem hIs (hSameItem.trans hIs)

end Entry

namespace OutlineRow

variable {t : Text}

/-- A carriage return behind white space or behind a comment has no part in the
outline. -/
theorem ofText?_return_of_ne_data (hForm : t.form ≠ .data) (levelWidth : Nat) :
    ofText? levelWidth (t ++ ['\r']) = ofText? levelWidth t := by
  cases hOwn : t.form with
  | data => exact absurd hOwn hForm
  | inline before body => exact ofText?_append_of_inline hOwn levelWidth _
  | full body =>
    rw [ofText?, ofText?, Row.dataLine?_read, Row.dataLine?_read, hOwn, Text.form_return_of_full hOwn]
  | blank =>
    have hReturn : (t ++ ['\r']).form = .blank := by
      rwa [Text.form_eq_blank_iff, Text.allBlank_return, ← Text.form_eq_blank_iff]
    rw [ofText?, ofText?, Row.dataLine?_read, Row.dataLine?_read, hOwn, hReturn]

theorem depth_return_of_data (hForm : t.form = .data) (levelWidth : Nat) :
    (t ++ ['\r']).depth levelWidth = t.depth levelWidth :=
  Text.depth_append_of_not_allBlank ((Text.form_eq_data_iff t).mp hForm).1 levelWidth _

/-- A row has data with a carriage return if it has some without, at the same
depth. -/
theorem depth_ofText?_return (t : Text) (levelWidth : Nat) :
    (ofText? levelWidth (t ++ ['\r'])).map depth = (ofText? levelWidth t).map depth := by
  by_cases hForm : t.form = .data
  · rw [ofText?_of_data hForm, ofText?_of_data (Text.form_return_of_data hForm)]
    exact congrArg some (depth_return_of_data hForm levelWidth)
  · rw [ofText?_return_of_ne_data hForm]

/-- **When a row keeps its place in the outline** without a carriage return at its
end. -/
theorem ofText?_return_eq_iff (t : Text) (levelWidth : Nat) :
    ofText? levelWidth (t ++ ['\r']) = ofText? levelWidth t ↔ ¬ t.HangsOnEnd := by
  by_cases hForm : t.form = .data
  · rw [ofText?_of_data hForm, ofText?_of_data (Text.form_return_of_data hForm), Option.some.injEq,
      ofLine_eq_iff, ← Entry.sameStep_return_iff hForm]
    exact ⟨fun hSame => ⟨hSame.1, hSame.2.1⟩,
      fun hSame => ⟨hSame.isItem, hSame.key, depth_return_of_data hForm levelWidth⟩⟩
  · exact iff_of_true (ofText?_return_of_ne_data hForm levelWidth) fun hHangs => hForm hHangs.form

end OutlineRow

-- ---------------------------------------------------------------------------
-- Documents
-- ---------------------------------------------------------------------------

/-- The rows are the same, or the first has one carriage return more at its end. -/
def Text.LosesReturn (own other : Text) : Prop :=
  own = other ∨ own = other ++ ['\r']

/-- The two rows are the same, or what the second one says does not hang on its
end. -/
def Text.KeepsStep (own other : Text) : Prop :=
  own ≠ other → ¬ other.HangsOnEnd

namespace OutlineRow

variable {own other : Text} {rows others : List Text}

theorem depth_ofText?_of_losesReturn (hRow : own.LosesReturn other) (levelWidth : Nat) :
    (ofText? levelWidth own).map depth = (ofText? levelWidth other).map depth := by
  rcases hRow with rfl | rfl
  · rfl
  · exact depth_ofText?_return other levelWidth

theorem ofText?_eq_iff_keepsStep (hRow : own.LosesReturn other) (levelWidth : Nat) :
    ofText? levelWidth own = ofText? levelWidth other ↔ own.KeepsStep other := by
  rcases hRow with rfl | rfl
  · exact iff_of_true rfl fun hNe => absurd rfl hNe
  · have hNe : other ++ ['\r'] ≠ other := by simp
    rw [ofText?_return_eq_iff, Text.KeepsStep]
    exact ⟨fun hKeeps _ => hKeeps, fun hKeeps => hKeeps hNe⟩

theorem map_depth_of_losesReturn (hRows : List.Forall₂ Text.LosesReturn rows others)
    (levelWidth : Nat) :
    (rows.map (ofText? levelWidth)).map (Option.map depth)
      = (others.map (ofText? levelWidth)).map (Option.map depth) := by
  induction hRows with
  | nil => rfl
  | cons hRow _ ih =>
    simp only [List.map_cons, depth_ofText?_of_losesReturn hRow, ih]

theorem map_ofText?_eq_iff (hRows : List.Forall₂ Text.LosesReturn rows others) (levelWidth : Nat) :
    rows.map (ofText? levelWidth) = others.map (ofText? levelWidth) ↔
      List.Forall₂ Text.KeepsStep rows others := by
  induction hRows with
  | nil => simp
  | cons hRow _ ih =>
    rw [List.map_cons, List.map_cons, List.cons.injEq, ih, ofText?_eq_iff_keepsStep hRow,
      List.forall₂_cons]

end OutlineRow

/-- The depths of the outline tell which lines have paths. -/
theorem Document.isSome_pathAt?_eq_depth (d : Document) (n : Nat) :
    (d.pathAt? n).isSome = (d.outline.map (Option.map OutlineRow.depth))[n]?.join.isSome := by
  have hRow : (d.pathAt? n).isSome = d.outline[n]?.join.isSome := by
    rw [isSome_pathAt?, join_getElem?_outline, Option.isSome_map]
  rw [hRow, List.getElem?_map]
  cases d.outline[n]? with
  | none => rfl
  | some row? => cases row? <;> rfl

/-- **When an index is kept without carriage returns.** If some rows lose one from
their ends, the same lines have paths. They have the same paths exactly if none of
these rows is left with data that hangs on its end: a lone dash, or an entry with a
key that only the colon at its end makes. -/
theorem stray_returns_keep_index_iff (d e : Document) (hWidth : d.levelWidth = e.levelWidth)
    (hRows : List.Forall₂ Text.LosesReturn d.rows e.rows) :
    (∀ n, (d.indexed.pathAt? n).isSome = (e.indexed.pathAt? n).isSome) ∧
    (d.indexed.index = e.indexed.index ↔ List.Forall₂ Text.KeepsStep d.rows e.rows) := by
  have hDepths : d.outline.map (Option.map OutlineRow.depth) = e.outline.map (Option.map OutlineRow.depth) := by
    rw [Document.outline, Document.outline, hWidth]
    exact OutlineRow.map_depth_of_losesReturn hRows e.levelWidth
  constructor
  · intro n
    rw [Document.pathAt?_indexed, Document.pathAt?_indexed, Document.isSome_pathAt?_eq_depth,
      Document.isSome_pathAt?_eq_depth, hDepths]
  · show d.pathTable = e.pathTable ↔ _
    rw [Document.pathTable_eq_iff_outline hDepths, Document.outline, Document.outline, hWidth]
    exact OutlineRow.map_ofText?_eq_iff hRows e.levelWidth

/-- A text with mixed endings whose second and third rows keep a carriage return:
the rows read the same without. -/
theorem stray_returns_keep_index_iff_mixed :
    ∃ d e : Document,
      d = .ofText 4 "a:\n    b: 1\r\n    - c # x\r\n".toList ∧
      e.rows = ["a:".toList, "    b: 1".toList, "    - c # x".toList] ∧
      d.levelWidth = e.levelWidth ∧ List.Forall₂ Text.LosesReturn d.rows e.rows ∧
      d.indexed.index = e.indexed.index := by
  let d : Document := .ofText 4 "a:\n    b: 1\r\n    - c # x\r\n".toList
  let e : Document := .ofRows 4 ["a:".toList, "    b: 1".toList, "    - c # x".toList]
  have hRows : d.rows = ["a:".toList, "    b: 1\r".toList, "    - c # x\r".toList] := by decide
  have hLoses : List.Forall₂ Text.LosesReturn d.rows e.rows := by
    rw [hRows]
    exact .cons (.inl rfl) (.cons (.inr rfl) (.cons (.inr rfl) .nil))
  have hKeeps : List.Forall₂ Text.KeepsStep d.rows e.rows := by
    rw [hRows]
    exact .cons (fun hNe => absurd rfl hNe) (.cons (fun _ => by decide) (.cons (fun _ => by decide) .nil))
  exact ⟨d, e, rfl, rfl, rfl, hLoses, (stray_returns_keep_index_iff d e rfl hLoses).2.mpr hKeeps⟩

/-- A carriage return behind a colon at the end of a row hides its key, and one
behind a lone dash hides the item. -/
theorem stray_return_hides_step :
    (∃ d e : Document,
      d = .ofText 4 "a:\r\n    b: 1\n".toList ∧ e = .ofText 4 "a:\n    b: 1\n".toList ∧
      List.Forall₂ Text.LosesReturn d.rows e.rows ∧
      d.pathAt? 1 = some ⟨[.key [], .key "b".toList]⟩ ∧
      e.pathAt? 1 = some ⟨[.key "a".toList, .key "b".toList]⟩ ∧ d.indexed.index ≠ e.indexed.index) ∧
    (IndexedDocument.ofRows 4 ["-\r".toList]).index ≠ (IndexedDocument.ofRows 4 ["-".toList]).index := by
  refine ⟨⟨_, _, rfl, rfl, ?_, by decide, by decide, by decide⟩, by decide⟩
  have hRows : (Document.ofText 4 "a:\r\n    b: 1\n".toList).rows = ["a:\r".toList, "    b: 1".toList] := by
    decide
  have hOthers : (Document.ofText 4 "a:\n    b: 1\n".toList).rows = ["a:".toList, "    b: 1".toList] := by
    decide
  rw [hRows, hOthers]
  exact .cons (.inr rfl) (.cons (.inl rfl) .nil)

end Marginalia
