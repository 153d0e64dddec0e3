import Marginalia.Proofs.Addressing
import Marginalia.Proofs.Extension

/-!
# What an inline comment does to its row

The data of a row stands between two margins of white space. A row of data alone
is split with its margins, and a row with an inline comment without them. So the
comment leaves the indentation of the row as it is, but what the row says only if
its margins say nothing:

* A dash starts an item only after spaces and tabs, and a lone dash only before a space, a tab or the end.
* A key and a value are read without the spaces and tabs around them; other white space is a part of them.
* A colon at the end of the data makes a key, a colon before a tab or before other white space does not.

Other white space is counted for this: stripping spaces and tabs and masking
markers leave the count as it is.

## Results

* `Text.leftMargin_append`        — a text is its margins and what stands between them.
* `Entry.isItem_ofData_iff`       — when a row with its margins is an item.
* `Entry.sameStep_trim_iff`, `Entry.readsAs_trim_iff` — exactly the rows with quiet margins read the same
  without them.
* `Document.pathTable_setAt_eq_iff` — another text for a row keeps the index if it keeps its outline row.
* `inline_comment_keeps_iff`      — what an inline comment keeps of its row and of the index.
-/

namespace Marginalia

namespace Text

-- ---------------------------------------------------------------------------
-- Margins
-- ---------------------------------------------------------------------------

/-- The white space at the start of a text. -/
def leftMargin (t : Text) : Text :=
  t.takeWhile isBlank

/-- The white space at the end of a text. A text of white space alone is its left
margin. -/
def rightMargin (t : Text) : Text :=
  ((stripStart isBlank t).reverse.takeWhile isBlank).reverse

theorem trim_append_rightMargin (t : Text) : t.trim ++ t.rightMargin = stripStart isBlank t :=
  stripEnd_append isBlank (stripStart isBlank t)

/-- A text is its margins and what stands between them. -/
theorem leftMargin_append (t : Text) : t.leftMargin ++ (t.trim ++ t.rightMargin) = t := by
  rw [trim_append_rightMargin]
  exact takeWhile_append_stripStart isBlank t

theorem isBlank_of_mem_leftMargin (t : Text) : ∀ c ∈ t.leftMargin, isBlank c :=
  fun _ hc => List.mem_takeWhile_imp hc

theorem isBlank_of_mem_rightMargin (t : Text) : ∀ c ∈ t.rightMargin, isBlank c :=
  isBlank_of_mem_tail (stripStart isBlank t)

/-- Without its left margin a text does not start with white space. -/
theorem not_isBlank_of_mem_head? {t : Text} : ∀ c ∈ (t.trim ++ t.rightMargin).head?, isBlank c = false := by
  intro c hc
  have hHead := List.head?_dropWhile_not isBlank t
  rw [show t.dropWhile isBlank = t.trim ++ t.rightMargin from (trim_append_rightMargin t).symm,
    hc] at hHead
  simpa using hHead

theorem not_isBlank_of_trim_eq_cons {t rest : Text} {c : Char} (hTrim : t.trim = c :: rest) :
    isBlank c = false :=
  not_isBlank_of_mem_head? c (by rw [hTrim]; rfl)

-- ---------------------------------------------------------------------------
-- Other white space
-- ---------------------------------------------------------------------------

/-- White space other than spaces and tabs. -/
def isOtherBlank (c : Char) : Bool :=
  isBlank c && !isIndent c

/-- White space consists of spaces and tabs if it has nothing else. -/
theorem countP_isOtherBlank_eq_zero {t : Text} (hBlank : ∀ c ∈ t, isBlank c) :
    t.countP isOtherBlank = 0 ↔ t.all isIndent := by
  rw [List.countP_eq_zero, List.all_eq_true]
  constructor
  · intro hNone c hc
    simpa [isOtherBlank, hBlank c hc] using hNone c hc
  · intro hAll c hc
    simp [isOtherBlank, hAll c hc]

theorem countP_isOtherBlank_of_indents {t : Text} (hAll : ∀ c ∈ t, isIndent c) :
    t.countP isOtherBlank = 0 :=
  (countP_isOtherBlank_eq_zero fun c hc => isBlank_of_isIndent (hAll c hc)).mpr
    (List.all_eq_true.mpr hAll)

/-- Stripping spaces and tabs keeps other white space. -/
theorem countP_trimIndent (t : Text) : t.trimIndent.countP isOtherBlank = t.countP isOtherBlank := by
  have hStart : (stripStart isIndent t).countP isOtherBlank = t.countP isOtherBlank := by
    conv => rhs; rw [← takeWhile_append_stripStart isIndent t]
    rw [List.countP_append, countP_isOtherBlank_of_indents fun c hc => List.mem_takeWhile_imp hc,
      Nat.zero_add]
  have hEnd : ∀ c ∈ ((stripStart isIndent t).reverse.takeWhile isIndent).reverse, isIndent c :=
    fun c hc => List.mem_takeWhile_imp (List.mem_reverse.mp hc)
  have hSplit := congrArg (List.countP isOtherBlank) (stripEnd_append isIndent (stripStart isIndent t))
  rw [List.countP_append, countP_isOtherBlank_of_indents hEnd, Nat.add_zero, hStart] at hSplit
  exact hSplit

end Text

namespace Entry

-- ---------------------------------------------------------------------------
-- Items
-- ---------------------------------------------------------------------------

theorem isSome_afterDash?_iff {t : Text} :
    (afterDash? t).isSome ↔ ∃ rest, t = '-' :: rest ∧ rest.head?.all isIndent = true := by
  cases t with
  | nil => simp [afterDash?]
  | cons c rest =>
    rw [afterDash?]
    split
    · next h => simp [h]
    · next h => simpa using h

theorem isItem_ofData (t : Text) :
    (ofData t).isItem = (afterDash? (Text.stripStart isIndent t)).isSome := by
  rw [ofData]
  cases afterDash? (Text.stripStart isIndent t) with
  | some content => rfl
  | none =>
    dsimp only
    split <;> rfl

/-- Without its left margin a text starts an item where its first character does. -/
theorem isItem_ofData_trim (t : Text) : (ofData t.trim).isItem = (afterDash? t.trim).isSome := by
  rw [isItem_ofData, Text.stripStart_of_head?]
  intro c hc
  cases hTrim : t.trim with
  | nil => simp [hTrim] at hc
  | cons d rest =>
    obtain rfl : d = c := by simpa [hTrim] using hc
    exact isIndent_eq_false_of_isBlank (Text.not_isBlank_of_trim_eq_cons hTrim)

/-- The right margin can only part a lone dash from what makes it an item. -/
theorem isSome_afterDash?_append {t tail : Text} (hTail : ∀ c ∈ tail, isBlank c) :
    (afterDash? (t ++ tail)).isSome ↔
      (afterDash? t).isSome ∧ (t = ['-'] → tail.head?.all isIndent = true) := by
  cases t with
  | nil =>
    simp only [List.nil_append, isSome_afterDash?_iff]
    constructor
    · rintro ⟨rest, rfl, -⟩
      exact absurd (hTail '-' List.mem_cons_self) (by decide)
    · rintro ⟨⟨rest, hNil, -⟩, -⟩
      cases hNil
  | cons c rest =>
    cases rest with
    | nil => simp [isSome_afterDash?_iff]; tauto
    | cons d rest => simp [isSome_afterDash?_iff]

/-- **When a row with its margins is an item**: it is one without them, only
spaces and tabs stand before its dash, and a lone dash is not followed by other
white space. -/
theorem isItem_ofData_iff (t : Text) :
    (ofData t).isItem ↔
      t.leftMargin.all isIndent = true ∧ (ofData t.trim).isItem ∧
        (t.trim = ['-'] → t.rightMargin.head?.all isIndent = true) := by
  rw [isItem_ofData_trim, ← isSome_afterDash?_append t.isBlank_of_mem_rightMargin, isItem_ofData]
  conv => lhs; rw [← t.leftMargin_append]
  by_cases hLeft : t.leftMargin.all isIndent = true
  · rw [Text.stripStart_append_of_all (List.all_eq_true.mp hLeft), Text.stripStart_of_head?
      fun c hc => isIndent_eq_false_of_isBlank (Text.not_isBlank_of_mem_head? c hc)]
    simp [hLeft]
  · -- the first other character is white space, so it is no dash
    cases hRest : Text.stripStart isIndent t.leftMargin with
    | nil =>
      rw [Text.stripStart_eq_nil_iff] at hRest
      exact absurd (List.all_eq_true.mpr hRest) hLeft
    | cons c rest =>
      have hBlank : isBlank c :=
        t.isBlank_of_mem_leftMargin c ((List.dropWhile_suffix isIndent).subset
          (by rw [← Text.stripStart, hRest]; exact List.mem_cons_self))
      have hDash : c ≠ '-' := by
        rintro rfl
        exact absurd hBlank (by decide)
      rw [Text.stripStart, List.dropWhile_append, ← Text.stripStart, hRest]
      simp [hLeft, afterDash?, hDash]

theorem ofData_dash_cons {content : Text} (hContent : content.head?.all isIndent = true) :
    ofData ('-' :: content) = .item (Text.maskMarkers content.trim) := by
  have hStart : Text.stripStart isIndent ('-' :: content) = '-' :: content := rfl
  rw [ofData, hStart, afterDash?, if_pos ⟨rfl, hContent⟩]

/-- What an item says does not depend on its margins. -/
theorem ofData_trim_of_isItem {t : Text} (hItem : (ofData t).isItem) : ofData t.trim = ofData t := by
  obtain ⟨hLeft, hTrimItem, -⟩ := (isItem_ofData_iff t).mp hItem
  have hInner := ofData_append_of_indents (List.all_eq_true.mp hLeft) (t.trim ++ t.rightMargin)
  rw [t.leftMargin_append] at hInner
  rw [hInner, isItem_ofData, Text.stripStart_of_head?
    fun c hc => isIndent_eq_false_of_isBlank (Text.not_isBlank_of_mem_head? c hc)] at hItem
  rw [isItem_ofData_trim] at hTrimItem
  obtain ⟨rest, hTrim, hRest⟩ := isSome_afterDash?_iff.mp hTrimItem
  obtain ⟨more, hMore, hMoreRest⟩ := isSome_afterDash?_iff.mp hItem
  obtain rfl : rest ++ t.rightMargin = more := by
    rw [hTrim, List.cons_append] at hMore
    exact (List.cons.inj hMore).2
  rw [hInner, hMore, hTrim, ofData_dash_cons hRest, ofData_dash_cons hMoreRest,
    Text.trim_append_of_all t.isBlank_of_mem_rightMargin]

-- ---------------------------------------------------------------------------
-- Pairs
-- ---------------------------------------------------------------------------

/-- A colon that makes a key in a longer text makes one in its front, unless it
stands in what was cut off. -/
theorem hasKeyColon_of_append {t tail : Text} (hTail : ':' ∉ tail) (hKey : hasKeyColon (t ++ tail)) :
    hasKeyColon t := by
  induction t with
  | nil => exact absurd (mem_of_hasKeyColon hKey) hTail
  | cons c rest ih =>
    rw [List.cons_append, hasKeyColon, Bool.or_eq_true] at hKey
    rw [hasKeyColon, Bool.or_eq_true]
    rcases hKey with hHere | hLater
    · left
      cases rest with
      | nil => simp_all
      | cons d rest => exact hHere
    · exact .inr (ih hLater)

theorem splitAtColon_append_of_mem {t : Text} (hColon : ':' ∈ t) (tail : Text) :
    splitAtColon (t ++ tail) = ((splitAtColon t).1, (splitAtColon t).2 ++ tail) := by
  induction t with
  | nil => cases hColon
  | cons c rest ih =>
    by_cases hc : c = ':'
    · simp [splitAtColon, hc]
    · have hRest := ih ((List.mem_cons.mp hColon).resolve_left (Ne.symm hc))
      simpa [splitAtColon, hc] using hRest

theorem hasKeyColon_trim {t : Text} (hKey : hasKeyColon t) : hasKeyColon t.trim := by
  rw [← t.leftMargin_append,
    hasKeyColon_append_of_not_mem (colon_not_mem_of_blanks t.isBlank_of_mem_leftMargin)] at hKey
  exact hasKeyColon_of_append (colon_not_mem_of_blanks t.isBlank_of_mem_rightMargin) hKey

/-- The margins go with the key and with the value. -/
theorem splitAtColon_eq_margins {t : Text} (hColon : ':' ∈ t.trim) :
    splitAtColon t
      = (t.leftMargin ++ (splitAtColon t.trim).1, (splitAtColon t.trim).2 ++ t.rightMargin) := by
  conv => lhs; rw [← t.leftMargin_append]
  rw [splitAtColon_append_of_not_mem (colon_not_mem_of_blanks t.isBlank_of_mem_leftMargin),
    splitAtColon_append_of_mem hColon]

theorem ofData_of_not_isItem {t : Text} (hItem : (ofData t).isItem = false) :
    ofData t = if hasKeyColon t then
      .pair (Text.maskMarkers (Text.trimIndent (splitAtColon t).1))
        (Text.maskMarkers (Text.trimIndent (splitAtColon t).2))
      else .plain := by
  rw [isItem_ofData, Option.isSome_eq_false_iff, Option.isNone_iff_eq_none] at hItem
  rw [ofData, hItem]

theorem countP_readBack (t : Text) :
    (Text.maskMarkers (Text.trimIndent t)).unmaskMarkers.countP Text.isOtherBlank
      = t.countP Text.isOtherBlank := by
  have hMask : (marker :: markerMask).countP Text.isOtherBlank = 0 := by decide
  rw [Text.countP_unmaskMarkers hMask, Text.countP_maskMarkers hMask, Text.countP_trimIndent]

/-- A part that reads the same with a margin has no other white space in it. -/
theorem all_isIndent_of_readBack_eq {margin t whole : Text} (hMargin : ∀ c ∈ margin, isBlank c)
    (hWhole : whole.countP Text.isOtherBlank = margin.countP Text.isOtherBlank + t.countP Text.isOtherBlank)
    (hEq : (Text.maskMarkers (Text.trimIndent t)).unmaskMarkers
      = (Text.maskMarkers (Text.trimIndent whole)).unmaskMarkers) :
    margin.all isIndent = true := by
  have hCount := congrArg (List.countP Text.isOtherBlank) hEq
  rw [countP_readBack, countP_readBack] at hCount
  exact (Text.countP_isOtherBlank_eq_zero hMargin).mp (by omega)

/-- A key reads the same with its margin exactly if that is of spaces and tabs. -/
theorem readBack_append_left_iff {margin : Text} (hMargin : ∀ c ∈ margin, isBlank c) (t : Text) :
    (Text.maskMarkers (Text.trimIndent t)).unmaskMarkers
        = (Text.maskMarkers (Text.trimIndent (margin ++ t))).unmaskMarkers ↔
      margin.all isIndent = true := by
  constructor
  · exact all_isIndent_of_readBack_eq hMargin List.countP_append
  · intro hAll
    rw [Text.trimIndent, Text.trimIndent, Text.strip, Text.strip,
      Text.stripStart_append_of_all (List.all_eq_true.mp hAll)]

/-- So does a value. -/
theorem readBack_append_right_iff {margin : Text} (hMargin : ∀ c ∈ margin, isBlank c) (t : Text) :
    (Text.maskMarkers (Text.trimIndent t)).unmaskMarkers
        = (Text.maskMarkers (Text.trimIndent (t ++ margin))).unmaskMarkers ↔
      margin.all isIndent = true := by
  constructor
  · exact all_isIndent_of_readBack_eq hMargin (by rw [List.countP_append, Nat.add_comm])
  · intro hAll
    rw [Text.trimIndent, Text.trimIndent, Text.strip_append_of_all (List.all_eq_true.mp hAll)]

end Entry

-- ---------------------------------------------------------------------------
-- Quiet margins
-- ---------------------------------------------------------------------------

/-- The margins leave the row what it is without them: an item, or an entry with
its key. Only spaces and tabs may stand before an item or a key, and one of them
first behind a lone dash. If no colon makes a key, for the right margin may keep
the last one from it, then there must be no key without the margins either. -/
def Text.quietStep (t : Text) : Bool :=
  if (Entry.ofData t.trim).isItem then
    t.leftMargin.all isIndent && (t.trim != ['-'] || t.rightMargin.head?.all isIndent)
  else if Entry.hasKeyColon t then t.leftMargin.all isIndent
  else (Entry.ofData t.trim).key.isEmpty

/-- The margins leave the row the value that it has without them. -/
def Text.quietValue (t : Text) : Bool :=
  if (Entry.ofData t.trim).isItem then true
  else if Entry.hasKeyColon t then t.rightMargin.all isIndent
  else (Entry.ofData t.trim).value.isEmpty

/-- The margins of a row of data say nothing: the row reads the same without
them. -/
def Text.quietMargins (t : Text) : Bool :=
  t.quietStep && t.quietValue

namespace Entry

/-- Two entries of one kind with one key, which take the same step of a path. -/
structure SameStep (e f : Entry) : Prop where
  isItem : e.isItem = f.isItem
  key : e.key = f.key

/-- Two entries that read the same: of one kind, with one key and one value. -/
structure ReadsAs (e f : Entry) : Prop extends SameStep e f where
  value : e.value = f.value

variable {t : Text}

theorem isItem_eq_false_of_trim (hItem : (ofData t.trim).isItem = false) :
    (ofData t).isItem = false := by
  rw [Bool.eq_false_iff, ne_eq, isItem_ofData_iff, hItem]
  simp

/-- A row with a colon that makes a key has its parts with their margins. -/
theorem ofData_of_hasKeyColon (hItem : (ofData t.trim).isItem = false) (hKey : hasKeyColon t) :
    ofData t = .pair
      (Text.maskMarkers (Text.trimIndent (t.leftMargin ++ (splitAtColon t.trim).1)))
      (Text.maskMarkers (Text.trimIndent ((splitAtColon t.trim).2 ++ t.rightMargin))) := by
  rw [ofData_of_not_isItem (isItem_eq_false_of_trim hItem), if_pos hKey,
    splitAtColon_eq_margins (mem_of_hasKeyColon (hasKeyColon_trim hKey))]

theorem ofData_of_not_hasKeyColon (hItem : (ofData t.trim).isItem = false) (hKey : ¬ hasKeyColon t) :
    ofData t = .plain := by
  rw [ofData_of_not_isItem (isItem_eq_false_of_trim hItem), if_neg hKey]

/-- What is an item without its margins is one with them if they are quiet. -/
theorem isItem_iff_quietStep (hItem : (ofData t.trim).isItem) : (ofData t).isItem ↔ t.quietStep := by
  rw [isItem_ofData_iff, Text.quietStep, if_pos hItem]
  simp [hItem, Decidable.imp_iff_not_or]

/-- **When a row keeps its kind and its key without its margins.** -/
theorem sameStep_trim_iff (t : Text) : (ofData t.trim).SameStep (ofData t) ↔ t.quietStep := by
  by_cases hItem : (ofData t.trim).isItem
  · rw [← isItem_iff_quietStep hItem]
    constructor
    · intro hSame
      rw [← hSame.isItem]
      exact hItem
    · intro hData
      rw [ofData_trim_of_isItem hData]
      exact ⟨rfl, rfl⟩
  · have hNot := Bool.eq_false_iff.mpr hItem
    rw [Text.quietStep, if_neg hItem]
    split
    · next hKey =>
      have hMargin := readBack_append_left_iff t.isBlank_of_mem_leftMargin (splitAtColon t.trim).1
      rw [ofData_of_hasKeyColon hNot hKey, ofData_of_not_isItem hNot, if_pos (hasKeyColon_trim hKey)]
      exact ⟨fun hSame => hMargin.mp hSame.key, fun hLeft => ⟨rfl, hMargin.mpr hLeft⟩⟩
    · next hKey =>
      rw [ofData_of_not_hasKeyColon hNot hKey, List.isEmpty_iff]
      exact ⟨fun hSame => hSame.key, fun hNone => ⟨hNot, hNone⟩⟩

/-- **When it keeps its value too.** -/
theorem value_trim_iff (hStep : t.quietStep) :
    (ofData t.trim).value = (ofData t).value ↔ t.quietValue := by
  by_cases hItem : (ofData t.trim).isItem
  · rw [ofData_trim_of_isItem ((isItem_iff_quietStep hItem).mpr hStep), Text.quietValue, if_pos hItem]
    simp
  · have hNot := Bool.eq_false_iff.mpr hItem
    rw [Text.quietValue, if_neg hItem]
    split
    · next hKey =>
      rw [ofData_of_hasKeyColon hNot hKey, ofData_of_not_isItem hNot, if_pos (hasKeyColon_trim hKey)]
      exact readBack_append_right_iff t.isBlank_of_mem_rightMargin _
    · next hKey =>
      rw [ofData_of_not_hasKeyColon hNot hKey, List.isEmpty_iff]
      rfl

/-- **Exactly the rows with quiet margins read the same without them.** -/
theorem readsAs_trim_iff (t : Text) : (ofData t.trim).ReadsAs (ofData t) ↔ t.quietMargins := by
  rw [Text.quietMargins, Bool.and_eq_true, ← sameStep_trim_iff]
  constructor
  · intro hReads
    have hSame := hReads.toSameStep
    exact ⟨hSame, (value_trim_iff ((sameStep_trim_iff t).mp hSame)).mp hReads.value⟩
  · rintro ⟨hSame, hValue⟩
    exact ⟨hSame, (value_trim_iff ((sameStep_trim_iff t).mp hSame)).mpr hValue⟩

end Entry

-- ---------------------------------------------------------------------------
-- Rows of data with an inline comment
-- ---------------------------------------------------------------------------

namespace Row

theorem read_of_data {text : Text} (hForm : text.form = .data) (number : Nat) :
    read number text = .data (.ofText number text) := by
  rw [read, hForm]

/-- A row of data with a comment at its end says what the data says without its
margins. -/
theorem read_extend_of_data {text : Text} (hForm : text.form = .data) (number : Nat) (body : Text) :
    read number (text ++ ' ' :: marker :: body)
      = .comment
          { line := .ofData number (text ++ ' ' :: marker :: body) text.trim, body, form := .inline } := by
  rw [read, Text.form_extend_of_data hForm]
  dsimp only
  rw [Text.trim_append_space]

theorem read_of_inline {text before body : Text} (hForm : text.form = .inline before body)
    (number : Nat) :
    read number text
      = .comment { line := .ofData number text before.trim, body, form := .inline } := by
  rw [read, hForm]

theorem hasData_iff {number : Nat} {text : Text} :
    (read number text).hasData ↔
      text.form = .data ∨ ∃ before body, text.form = .inline before body := by
  rw [hasData, dataLine?_read]
  cases text.form <;> simp

theorem hasData_extend {number : Nat} {text : Text} (hData : (read number text).hasData) (body : Text) :
    (read number (text ++ ' ' :: marker :: body)).hasData := by
  rw [hasData_iff] at hData ⊢
  rcases hData with hForm | ⟨before, old, hForm⟩
  · exact .inr ⟨_, _, Text.form_extend_of_data hForm body⟩
  · exact .inr ⟨_, _, Text.form_extend_of_inline hForm _⟩

/-- A row with data keeps its indentation whatever is written at its end. -/
theorem depth_append {number : Nat} {text : Text} (hData : (read number text).hasData)
    (levelWidth : Nat) (more : Text) :
    (text ++ more).depth levelWidth = text.depth levelWidth := by
  refine Text.depth_append_of_not_allBlank (fun hBlank => ?_) levelWidth more
  have hForm : text.form = .blank := if_pos hBlank
  rw [hasData_iff, hForm] at hData
  simp at hData

/-- **A comment at the end of a row keeps its kind and its key** if the row has one
already or has quiet margins. -/
theorem sameStep_extend_iff {number : Nat} {text : Text} (hData : (read number text).hasData)
    (body : Text) :
    (read number (text ++ ' ' :: marker :: body)).line.entry.SameStep (read number text).line.entry ↔
      (text.form = .data → text.quietStep) := by
  rcases hasData_iff.mp hData with hForm | ⟨before, old, hForm⟩
  · rw [read_extend_of_data hForm, read_of_data hForm]
    simp only [hForm, true_imp_iff]
    exact Entry.sameStep_trim_iff text
  · rw [read_of_inline (Text.form_extend_of_inline hForm _), read_of_inline hForm, hForm]
    exact iff_of_true ⟨rfl, rfl⟩ fun hNot => nomatch hNot

end Row

namespace OutlineRow

/-- Below the same rows, rows of one depth with the same step are the same row of
the outline. -/
theorem eq_of_step_eq {row other : OutlineRow} {above : List OutlineRow}
    (hDepth : row.depth = other.depth) (hStep : row.step above = other.step above) : row = other := by
  obtain ⟨depth, key?⟩ := row
  obtain ⟨_, otherKey?⟩ := other
  obtain rfl := hDepth
  cases key? <;> cases otherKey? <;> simp_all [step]

end OutlineRow

namespace Document

variable {d : Document} {n : Nat} {text other : Text} {row otherRow : OutlineRow}

theorem outline_setAt (d : Document) (n : Nat) (text : Text) :
    (d.setAt n text).outline = d.outline.set n (OutlineRow.ofText? d.levelWidth text) :=
  List.map_set

theorem rowsAbove_setAt (d : Document) (n : Nat) (text : Text) :
    (d.setAt n text).rowsAbove n = d.rowsAbove n := by
  rw [rowsAbove, Outline.rowsAbove, outline_setAt, List.take_set_of_le (Nat.le_refl n), rowsAbove,
    Outline.rowsAbove]

theorem pathAt?_of_outline (hRow : d.outline[n]? = some (some row)) :
    d.pathAt? n = some (row.path (d.rowsAbove n)) := by
  rw [pathAt?, paths, Outline.getElem?_paths, hRow]
  rfl

/-- **Another text of the same depth keeps the index exactly if it keeps the row of
the outline.** If it does, no other row sees a difference. If it does not, the
last step of the row's own path is another. -/
theorem pathTable_setAt_eq_iff (hText : d.textAt? n = some text)
    (hRow : OutlineRow.ofText? d.levelWidth text = some row)
    (hOther : OutlineRow.ofText? d.levelWidth other = some otherRow)
    (hDepth : otherRow.depth = row.depth) :
    (d.setAt n other).pathTable = d.pathTable ↔ otherRow = row := by
  have hOld : d.outline[n]? = some (some row) := by
    rw [getElem?_outline, hText, Option.map_some, hRow]
  have hLt : n < d.outline.length := (List.getElem?_eq_some_iff.mp hOld).1
  have hNew : (d.setAt n other).outline[n]? = some (some otherRow) := by
    rw [outline_setAt, List.getElem?_set_self hLt, hOther]
  constructor
  · intro hTable
    have hPath : (d.setAt n other).pathAt? n = d.pathAt? n := by
      rw [pathAt?_of_outline hOld, ← mem_pathTable_iff, hTable, mem_pathTable_iff,
        pathAt?_of_outline hOld]
    rw [pathAt?_of_outline hNew, pathAt?_of_outline hOld, rowsAbove_setAt, Option.some.injEq] at hPath
    exact OutlineRow.eq_of_step_eq hDepth (Path.child_inj.mp hPath).2
  · rintro rfl
    have hOutline : (d.setAt n other).outline = d.outline := by
      rw [outline_setAt, hOther, ← (List.getElem?_eq_some_iff.mp hOld).2, List.set_getElem_self]
    rw [pathTable, paths_congr hOutline, pathTable]

/-- The index after a row was given a comment at its end. -/
theorem index_setAt_extend_iff (hText : d.textAt? n = some text) (hData : (Row.read n text).hasData)
    (body : Text) :
    (d.indexed.setAt n (text ++ ' ' :: marker :: body)).index = d.indexed.index ↔
      (text.form = .data → text.quietStep) := by
  have hLt : n < d.indexed.rows.length := (List.getElem?_eq_some_iff.mp hText).1
  have hRow : ∀ t : Text, (Row.read n t).hasData →
      OutlineRow.ofText? d.levelWidth t = some (.ofLine d.levelWidth (Row.read n t).line) := by
    intro t ht
    obtain ⟨line, hLine⟩ := Option.isSome_iff_exists.mp ht
    rw [OutlineRow.ofText?_eq_read d.levelWidth n, hLine, Row.line_of_dataLine? hLine, Option.map_some]
  have hDepth : (Row.read n (text ++ ' ' :: marker :: body)).line.depth d.levelWidth
      = (Row.read n text).line.depth d.levelWidth := by
    rw [Line.depth, Line.depth, Row.text_read, Row.text_read]
    exact Row.depth_append hData d.levelWidth _
  rw [IndexedDocument.setAt, if_pos hLt]
  show (d.setAt n _).pathTable = d.pathTable ↔ _
  rw [pathTable_setAt_eq_iff hText (hRow _ hData) (hRow _ (Row.hasData_extend hData body)) hDepth,
    OutlineRow.ofLine_eq_iff, ← Row.sameStep_extend_iff hData body]
  constructor
  · rintro ⟨hItem, hKey, -⟩
    exact ⟨hItem, hKey⟩
  · intro hSame
    exact ⟨hSame.isItem, hSame.key, hDepth⟩

end Document

/-- **What an inline comment keeps of its row and of the index.** Whatever its
body, it is read back as it was written, and the row keeps its indentation. What a
row of data says is kept exactly if its margins are quiet. The index is kept
exactly if the row has an inline comment already or stays an item, or an entry with
its key, without its margins. -/
theorem inline_comment_keeps_iff (number : Nat) (text body : Text) :
    (text.form = .data →
      ∃ comment : Comment, Row.read number (text ++ ' ' :: marker :: body) = .comment comment ∧
        comment.form = .inline ∧ comment.body = body ∧
        (∀ levelWidth, comment.line.depth levelWidth = (Line.ofText number text).depth levelWidth) ∧
        (comment.line.entry.ReadsAs (Line.ofText number text).entry ↔ text.quietMargins)) ∧
    (∀ d : Document, d.textAt? number = some text → (Row.read number text).hasData →
      ((d.indexed.setAt number (text ++ ' ' :: marker :: body)).index = d.indexed.index ↔
        (text.form = .data → text.quietStep))) := by
  refine ⟨fun hForm => ?_, fun d hText hData => Document.index_setAt_extend_iff hText hData body⟩
  have hData : (Row.read number text).hasData := Row.hasData_iff.mpr (.inl hForm)
  exact ⟨_, Row.read_extend_of_data hForm number body, rfl, rfl,
    fun levelWidth => Row.depth_append hData levelWidth _, Entry.readsAs_trim_iff text⟩

/-- A row of data with a tab behind it, and a row that has a comment already. -/
theorem inline_comment_keeps_iff_mapping :
    ∃ d : Document, d.rows = ["a: 1 \t".toList, "b: # x".toList] ∧
      Text.form "a: 1 \t".toList = .data ∧
      (Entry.ofData "a: 1".toList).ReadsAs (Entry.ofData "a: 1 \t".toList) ∧
      (d.indexed.setAt 0 "a: 1 \t # y".toList).index = d.indexed.index ∧
      (d.indexed.setAt 1 "b: # x #".toList).index = d.indexed.index := by
  have hForm : Text.form "a: 1 \t".toList = .data := by decide
  obtain ⟨hRow, hIndex⟩ := inline_comment_keeps_iff 0 "a: 1 \t".toList " y".toList
  obtain ⟨comment, hRead, -, -, -, hReads⟩ := hRow hForm
  refine ⟨Document.ofRows 2 ["a: 1 \t".toList, "b: # x".toList], rfl, hForm, ?_, ?_, ?_⟩
  · obtain rfl := Row.comment.inj hRead
    exact hReads.mpr (by decide)
  · exact (hIndex _ rfl (by decide)).mpr fun _ => by decide
  · have hSecond := (inline_comment_keeps_iff 1 "b: # x".toList []).2
    exact (hSecond _ rfl (by decide)).mpr fun hData => absurd hData (by decide)

/-- A colon before a tab makes no key until an inline comment follows. -/
theorem inline_comment_changes_key :
    Text.form "key:\t".toList = .data ∧
      Row.read 0 "key:\t # c".toList
        = .comment { line := .ofData 0 "key:\t # c".toList "key:".toList, body := " c".toList,
                     form := .inline } ∧
      (Row.read 0 "key:\t # c".toList).line.key = "key".toList ∧
      (Row.read 0 "key:\t".toList).line.key = [] ∧
      ((Document.ofRows 4 ["key:\t".toList]).indexed.setAt 0 "key:\t # c".toList).index
        ≠ (Document.ofRows 4 ["key:\t".toList]).indexed.index := by
  decide

end Marginalia
