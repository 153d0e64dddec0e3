import Marginalia.Proofs.Margins
import Marginalia.Proofs.Siblings

/-!
# Masks in keys and values

A key or a value is kept with its markers masked and read with its masks as
markers. A mask that was in the text all along is not told apart from one that
stands for a marker: masking leaves it as it is, and reading makes a marker of it.
So what is read is the text of the key or the value with each mask in it read as a
marker.

* It is the text itself exactly if that has no mask.
* Two texts read the same exactly if they are kept the same, that is, if they differ in nothing but that one
  has a mask where the other one has a marker.

Rows with the same parent are told apart by their keys, so two entries below one
parent share a path exactly if the texts of their keys are kept the same.

## Results

* `Text.unmaskMarkers_maskMarkers`, `Text.maskMarkers_unmaskMarkers` — neither way takes back the other one.
* `Text.unmaskMarkers_eq_self_iff`, `Text.unmaskMarkers_eq_iff` — which texts read as they are, and which alike.
* `Text.ItemOf.ofData_eq`, `Text.EntryOf.ofData_eq` — the texts that keys and values are taken from.
* `Document.pathAt?_eq_iff_key_eq`  — when two entries with the same parent share a path.
* `masks_read_as_markers`            — what is read of keys and values, and when two keys read the same.
-/

namespace Marginalia

-- ---------------------------------------------------------------------------
-- There and back
-- ---------------------------------------------------------------------------

namespace Text

variable {c : Char} {piece rest s t : Text}

theorem maskMarkers_cons_of_ne (hNe : c ≠ marker) (rest : Text) :
    maskMarkers (c :: rest) = c :: maskMarkers rest := by
  rw [maskMarkers, if_neg hNe]

/-- The reader's second case: the text does not start with a mask. -/
theorem not_markerMask_isPrefix
    (hMask : ∀ more, c = '\\' → rest = 'u' :: '0' :: '0' :: '2' :: '3' :: more → False) :
    ¬ markerMask <+: c :: rest := by
  rintro ⟨more, hMore⟩
  obtain ⟨hFirst, hRest⟩ := List.cons.inj hMore
  exact hMask more hFirst.symm hRest.symm

/-- There it keeps its first character. -/
theorem unmaskMarkers_cons (hMask : ¬ markerMask <+: c :: rest) :
    unmaskMarkers (c :: rest) = c :: unmaskMarkers rest := by
  rw [unmaskMarkers]
  intro more hc hRest
  exact hMask ⟨more, by rw [hc, hRest]; rfl⟩

/-- Masking makes no start of a text that was not there, but for one with the first
character of a mask. -/
theorem isPrefix_of_isPrefix_maskMarkers (hStart : '\\' ∉ s) (hMasked : s <+: t.maskMarkers) : s <+: t := by
  induction t generalizing s with
  | nil => exact hMasked
  | cons c rest ih =>
    cases s with
    | nil => exact List.nil_prefix
    | cons d s =>
      obtain ⟨hd, hs⟩ := not_or.mp (List.mem_cons.not.mp hStart)
      by_cases hc : c = marker
      · -- the marker was masked, and no mask starts with `d`
        rw [maskMarkers, if_pos hc] at hMasked
        exact absurd (List.cons_prefix_cons.mp hMasked).1.symm hd
      · rw [maskMarkers_cons_of_ne hc, List.cons_prefix_cons] at hMasked
        exact List.cons_prefix_cons.mpr ⟨hMasked.1, ih hs hMasked.2⟩

theorem markerMask_isPrefix_of_maskMarkers (hMasked : markerMask <+: c :: maskMarkers rest) :
    markerMask <+: c :: rest := by
  rw [markerMask, List.cons_prefix_cons] at hMasked ⊢
  exact ⟨hMasked.1, isPrefix_of_isPrefix_maskMarkers (by decide) hMasked.2⟩

/-- **Reading a text that was kept** is reading the text. By induction along the
reader: a mask of the text is kept as it is, and a marker as one mask. -/
theorem unmaskMarkers_maskMarkers (t : Text) : t.maskMarkers.unmaskMarkers = t.unmaskMarkers := by
  fun_induction unmaskMarkers t with
  | case1 rest ih => exact congrArg (marker :: ·) ih
  | case2 c rest hMask ih =>
    by_cases hc : c = marker
    · rw [maskMarkers, if_pos hc, hc]
      exact congrArg (marker :: ·) ih
    · rw [maskMarkers_cons_of_ne hc, unmaskMarkers_cons, ih]
      exact fun hMasked => not_markerMask_isPrefix hMask (markerMask_isPrefix_of_maskMarkers hMasked)
  | case3 => rfl

/-- Keeping a text that was read is keeping the text. -/
theorem maskMarkers_unmaskMarkers (t : Text) : t.unmaskMarkers.maskMarkers = t.maskMarkers := by
  fun_induction unmaskMarkers t with
  | case1 rest ih => exact congrArg (markerMask ++ ·) ih
  | case2 c rest hMask ih => rw [maskMarkers, maskMarkers, ih]
  | case3 => rfl

/-- **Two texts read the same exactly if they are kept the same.** -/
theorem unmaskMarkers_eq_iff : s.unmaskMarkers = t.unmaskMarkers ↔ s.maskMarkers = t.maskMarkers := by
  constructor
  · intro hRead
    rw [← maskMarkers_unmaskMarkers s, hRead, maskMarkers_unmaskMarkers]
  · intro hKept
    rw [← unmaskMarkers_maskMarkers s, hKept, unmaskMarkers_maskMarkers]

/-- **A text reads as it is exactly if it has no mask.** -/
theorem unmaskMarkers_eq_self_iff (t : Text) : t.unmaskMarkers = t ↔ ¬ markerMask <:+: t := by
  fun_induction unmaskMarkers t with
  | case1 rest ih =>
    have hMask : markerMask <:+: markerMask ++ rest := (List.prefix_append _ _).isInfix
    exact iff_of_false (fun hSame => absurd (List.cons.inj hSame).1 (by decide)) (not_not_intro hMask)
  | case2 c rest hMask ih =>
    rw [List.infix_cons_iff, List.cons.injEq, ih, not_or]
    simp only [true_and, not_markerMask_isPrefix hMask, not_false_eq_true]
  | case3 => decide

/-- What is read of a text that was kept: the text with its masks read as markers,
which is the text itself exactly if it has no mask. -/
structure ShownAs (piece shown : Text) : Prop where
  eq : shown = piece.unmaskMarkers
  verbatim_iff : shown = piece ↔ ¬ markerMask <:+: piece

theorem shownAs_unmaskMarkers (piece : Text) : piece.ShownAs piece.maskMarkers.unmaskMarkers := by
  rw [unmaskMarkers_maskMarkers]
  exact ⟨rfl, unmaskMarkers_eq_self_iff piece⟩

/-- Texts that are shown the same are kept the same, and are the same text unless
one of them has a mask. -/
theorem ShownAs.eq_iff {shown other : Text} (hs : s.ShownAs shown) (ht : t.ShownAs other) :
    (shown = other ↔ s.maskMarkers = t.maskMarkers) ∧
      (¬ markerMask <:+: s → ¬ markerMask <:+: t → (shown = other ↔ s = t)) := by
  refine ⟨by rw [hs.eq, ht.eq, unmaskMarkers_eq_iff], fun hsMask htMask => ?_⟩
  rw [hs.verbatim_iff.mpr hsMask, ht.verbatim_iff.mpr htMask]

-- ---------------------------------------------------------------------------
-- The texts of keys and values
-- ---------------------------------------------------------------------------

/-- The data is an item, and `content` stands after its dash. -/
inductive ItemOf : Text → Text → Prop
  | intro {margin content : Text} (hMargin : ∀ c ∈ margin, isIndent c)
      (hContent : content.head?.all isIndent = true) : ItemOf (margin ++ '-' :: content) content

/-- The data is an entry of a mapping. Its first colon, which need not be the one
that makes its key, stands between `name` and `content`. -/
structure EntryOf (data name content : Text) : Prop where
  not_item : (Entry.ofData data).isItem = false
  key_colon : Entry.hasKeyColon data
  eq_append : data = name ++ ':' :: content
  first : ':' ∉ name

variable {data name content : Text}

theorem ItemOf.ofData_eq (hItem : data.ItemOf content) :
    Entry.ofData data = .item content.trim.maskMarkers := by
  cases hItem with
  | intro hMargin hContent =>
    rw [Entry.ofData_append_of_indents hMargin, Entry.ofData_dash_cons hContent]

theorem EntryOf.ofData_eq (hEntry : data.EntryOf name content) :
    Entry.ofData data = .pair name.trimIndent.maskMarkers content.trimIndent.maskMarkers := by
  have hSplit : Entry.splitAtColon data = (name, content) := by
    have hColon : Entry.splitAtColon (':' :: content) = ([], content) := by simp [Entry.splitAtColon]
    rw [hEntry.eq_append, Entry.splitAtColon_append_of_not_mem hEntry.first, hColon, List.append_nil]
  rw [Entry.ofData_of_not_isItem hEntry.not_item, if_pos hEntry.key_colon, hSplit]

/-- Data that is neither says nothing. -/
theorem ofData_eq_plain (hItem : ∀ content, ¬ data.ItemOf content)
    (hEntry : ∀ name content, ¬ data.EntryOf name content) : Entry.ofData data = .plain := by
  have hNot : (Entry.ofData data).isItem = false := by
    refine Bool.eq_false_iff.mpr fun hIs => ?_
    rw [Entry.isItem_ofData] at hIs
    obtain ⟨content, hStrip, hContent⟩ := Entry.isSome_afterDash?_iff.mp hIs
    have hSplit := takeWhile_append_stripStart isIndent data
    rw [hStrip] at hSplit
    exact hItem content (hSplit ▸ .intro (fun _ hc => List.mem_takeWhile_imp hc) hContent)
  rw [Entry.ofData_of_not_isItem hNot, if_neg]
  intro hColon
  obtain ⟨hSplit, hFirst⟩ := Entry.splitAtColon_of_mem (Entry.mem_of_hasKeyColon hColon)
  exact hEntry _ _ ⟨hNot, hColon, hSplit, hFirst⟩

end Text

-- ---------------------------------------------------------------------------
-- Lines
-- ---------------------------------------------------------------------------

namespace Line

variable {data name content : Text}

theorem shownAs_of_itemOf (number : Nat) (text : Text) (hItem : data.ItemOf content) :
    (ofData number text data).isItem = true ∧ content.trim.ShownAs (ofData number text data).value := by
  rw [isItem, value, ofData, hItem.ofData_eq]
  exact ⟨rfl, Text.shownAs_unmaskMarkers _⟩

theorem shownAs_of_entryOf (number : Nat) (text : Text) (hEntry : data.EntryOf name content) :
    (ofData number text data).isItem = false ∧ name.trimIndent.ShownAs (ofData number text data).key ∧
      content.trimIndent.ShownAs (ofData number text data).value := by
  rw [isItem, key, value, ofData, hEntry.ofData_eq]
  exact ⟨rfl, Text.shownAs_unmaskMarkers _, Text.shownAs_unmaskMarkers _⟩

end Line

/-- The data of a row: the whole row, or what stands before its inline comment
without the white space around it. -/
def Text.data? (text : Text) : Option Text :=
  match text.form with
  | .blank => none
  | .data => some text
  | .full _ => none
  | .inline before _ => some before.trim

theorem Row.dataLine?_read_eq_map (number : Nat) (text : Text) :
    (read number text).dataLine? = text.data?.map (Line.ofData number text) := by
  rw [dataLine?_read, Text.data?]
  cases text.form <;> rfl

namespace Document

variable {d : Document} {m n : Nat} {a b : Line}

/-- Row `n` is an entry of a mapping, and its key is written like this. -/
def EntryAt (d : Document) (n : Nat) (key : Text) : Prop :=
  ∃ text ∈ d.textAt? n, ∃ data ∈ text.data?, ∃ name content,
    data.EntryOf name content ∧ name.trimIndent = key

theorem EntryAt.exists_line {key : Text} (hEntry : d.EntryAt n key) :
    ∃ line, d.dataLineAt? n = some line ∧ line.isItem = false ∧ key.ShownAs line.key := by
  obtain ⟨text, hText, data, hData, name, content, hOf, rfl⟩ := hEntry
  obtain ⟨hItem, hKey, -⟩ := Line.shownAs_of_entryOf n text hOf
  refine ⟨_, ?_, hItem, hKey⟩
  rw [dataLineAt?, hText, Option.bind_some, Row.dataLine?_read_eq_map, hData, Option.map_some]

/-- Two entries with the same parent share a path exactly if their keys read the
same. -/
theorem pathAt?_eq_iff_key_eq (hParent : d.parentAt? m = d.parentAt? n)
    (hm : d.dataLineAt? m = some a) (hn : d.dataLineAt? n = some b) (ha : a.isItem = false)
    (hb : b.isItem = false) : d.pathAt? m = d.pathAt? n ↔ a.key = b.key := by
  have hStep : d.stepAt? m = d.stepAt? n ↔ a.key = b.key := by
    rw [stepAt?_eq_iff hm hn, ha, hb]
    simp
  rw [← hStep]
  refine ⟨fun hPath => ?_, pathAt?_congr hParent⟩
  have hSame : d.parentPathAt m = d.parentPathAt n := by rw [parentPathAt, parentPathAt, hParent]
  rw [pathAt?_eq_child, pathAt?_eq_child, hSame] at hPath
  exact Option.map_injective (fun s t hst => (Path.child_inj.mp hst).2) hPath

end Document

/-- **Masks are read as markers, whoever wrote them.** The value of an item is the
trimmed text after its dash, the key and the value of an entry are the trimmed
texts around its first colon, each with its masks read as markers; so they are read
as they are written exactly if they have no mask. Two keys read the same, and two
entries with the same parent share a path, exactly if what is written of them
differs at most in masks that stand for markers. If it has no masks, it must not
differ at all. -/
theorem masks_read_as_markers (number otherNumber : Nat) (raw other : Text) (d : Document) :
    (∀ content, raw.ItemOf content →
      (Line.ofText number raw).isItem = true ∧ content.trim.ShownAs (Line.ofText number raw).value) ∧
    (∀ name content, raw.EntryOf name content →
      (Line.ofText number raw).isItem = false ∧
        name.trimIndent.ShownAs (Line.ofText number raw).key ∧
        content.trimIndent.ShownAs (Line.ofText number raw).value) ∧
    ((∀ content, ¬ raw.ItemOf content) → (∀ name content, ¬ raw.EntryOf name content) →
      (Line.ofText number raw).isItem = false ∧ (Line.ofText number raw).key = [] ∧
        (Line.ofText number raw).value = []) ∧
    (∀ name content otherName otherContent, raw.EntryOf name content →
      other.EntryOf otherName otherContent →
      ((Line.ofText number raw).key = (Line.ofText otherNumber other).key ↔
        name.trimIndent.maskMarkers = otherName.trimIndent.maskMarkers) ∧
      (¬ markerMask <:+: name.trimIndent → ¬ markerMask <:+: otherName.trimIndent →
        ((Line.ofText number raw).key = (Line.ofText otherNumber other).key ↔
          name.trimIndent = otherName.trimIndent))) ∧
    ∀ m n key otherKey, d.parentAt? m = d.parentAt? n → d.EntryAt m key → d.EntryAt n otherKey →
      (d.pathAt? m = d.pathAt? n ↔ key.maskMarkers = otherKey.maskMarkers) ∧
      (¬ markerMask <:+: key → ¬ markerMask <:+: otherKey →
        (d.pathAt? m = d.pathAt? n ↔ key = otherKey)) := by
  refine ⟨fun content hItem => Line.shownAs_of_itemOf number raw hItem,
    fun name content hEntry => Line.shownAs_of_entryOf number raw hEntry,
    fun hItem hEntry => ?_, ?_, ?_⟩
  · rw [Line.isItem, Line.key, Line.value, Line.ofText, Line.ofData, Text.ofData_eq_plain hItem hEntry]
    exact ⟨rfl, rfl, rfl⟩
  · intro name content otherName otherContent hEntry hOther
    obtain ⟨-, hKey, -⟩ := Line.shownAs_of_entryOf number raw hEntry
    obtain ⟨-, hOtherKey, -⟩ := Line.shownAs_of_entryOf otherNumber other hOther
    exact hKey.eq_iff hOtherKey
  · intro m n key otherKey hParent hEntry hOther
    obtain ⟨a, hm, ha, hKey⟩ := hEntry.exists_line
    obtain ⟨b, hn, hb, hOtherKey⟩ := hOther.exists_line
    rw [Document.pathAt?_eq_iff_key_eq hParent hm hn ha hb]
    exact hKey.eq_iff hOtherKey

/-- Three siblings of which the second one shares the path of the first one, since
the mask in its key reads as the marker in the other key; a value with a marker
reads as it is, and data that is no entry says nothing. -/
theorem masks_read_as_markers_siblings :
    ∃ d : Document,
      d.rows = ["a#: 1".toList, "a\\u0023: x#y # z".toList, "b: 3".toList, "- c#d".toList,
        "plain".toList] ∧
      d.EntryAt 0 "a#".toList ∧ d.EntryAt 1 "a\\u0023".toList ∧ d.EntryAt 2 "b".toList ∧
      d.pathAt? 0 = d.pathAt? 1 ∧ d.pathAt? 0 ≠ d.pathAt? 2 ∧
      (Line.ofText 0 "a#: 1".toList).key = "a#".toList ∧
      (Line.ofText 0 "a#: 1".toList).key = (Line.ofText 1 "a\\u0023: x#y".toList).key ∧
      (Line.ofText 3 "- c#d".toList).value = "c#d".toList ∧
      (Line.ofText 4 "plain".toList).key = [] := by
  have hFirst : Text.EntryOf "a#: 1".toList "a#".toList " 1".toList := ⟨by decide, by decide, rfl, by decide⟩
  have hSecond : Text.EntryOf "a\\u0023: x#y".toList "a\\u0023".toList " x#y".toList :=
    ⟨by decide, by decide, rfl, by decide⟩
  have hThird : Text.EntryOf "b: 3".toList "b".toList " 3".toList := ⟨by decide, by decide, rfl, by decide⟩
  let d := Document.ofRows 2 ["a#: 1".toList, "a\\u0023: x#y # z".toList, "b: 3".toList,
    "- c#d".toList, "plain".toList]
  have hFirstAt : d.EntryAt 0 "a#".toList := ⟨_, rfl, _, rfl, _, _, hFirst, rfl⟩
  have hSecondAt : d.EntryAt 1 "a\\u0023".toList := ⟨_, rfl, _, rfl, _, _, hSecond, rfl⟩
  have hThirdAt : d.EntryAt 2 "b".toList := ⟨_, rfl, _, rfl, _, _, hThird, rfl⟩
  have hItem : Text.ItemOf "- c#d".toList " c#d".toList :=
    @Text.ItemOf.intro [] " c#d".toList (List.forall_mem_nil _) rfl
  have hData : Entry.ofData "plain".toList = .plain := by decide
  obtain ⟨-, hEntry, -, hKeys, hPaths⟩ :=
    masks_read_as_markers 0 1 "a#: 1".toList "a\\u0023: x#y".toList d
  obtain ⟨hValue, -⟩ := masks_read_as_markers 3 3 "- c#d".toList "- c#d".toList d
  obtain ⟨-, -, hPlain, -⟩ := masks_read_as_markers 4 4 "plain".toList "plain".toList d
  refine ⟨d, rfl, hFirstAt, hSecondAt, hThirdAt,
    (hPaths 0 1 _ _ (by decide) hFirstAt hSecondAt).1.mpr (by decide), fun hPath => ?_,
    (hEntry _ _ hFirst).2.1.verbatim_iff.mpr (by decide),
    (hKeys _ _ _ _ hFirst hSecond).1.mpr (by decide),
    (hValue _ hItem).2.verbatim_iff.mpr (by decide), (hPlain ?_ ?_).2.1⟩
  · have hSame := ((hPaths 0 2 _ _ (by decide) hFirstAt hThirdAt).2 (by decide) (by decide)).mp hPath
    exact absurd hSame (by decide)
  · intro content hItem
    cases hData.symm.trans hItem.ofData_eq
  · intro name content hEntry
    cases hData.symm.trans hEntry.ofData_eq

/-- A mask in the text of a key or a value is not read as it is written, and two
entries with the same parent whose keys are written differently share a path. -/
theorem mask_in_key_reads_as_marker :
    (Line.ofText 0 "a\\u0023: 1".toList).key = "a#".toList ∧
    (Line.ofText 0 "a: \\u0023".toList).value = "#".toList ∧
    (Line.ofText 0 "- \\u0023".toList).value = "#".toList ∧
    ∃ d : Document, d.rows = ["a#: 1".toList, "a\\u0023: 2".toList] ∧
      d.EntryAt 0 "a#".toList ∧ d.EntryAt 1 "a\\u0023".toList ∧ d.parentAt? 0 = d.parentAt? 1 ∧
      d.pathAt? 0 = d.pathAt? 1 := by
  refine ⟨by decide, by decide, by decide, Document.ofRows 2 _, rfl, ?_, ?_, by decide, by decide⟩
  · exact ⟨_, rfl, _, rfl, "a#".toList, " 1".toList, ⟨by decide, by decide, rfl, by decide⟩, rfl⟩
  · exact ⟨_, rfl, _, rfl, "a\\u0023".toList, " 2".toList,
      ⟨by decide, by decide, rfl, by decide⟩, rfl⟩

end Marginalia
