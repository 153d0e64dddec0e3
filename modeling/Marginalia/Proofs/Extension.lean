import Marginalia.Proofs.Reading
import Mathlib.Data.List.DropRight

/-!
# Rows with a comment at their end

An inline comment is written at the end of a row: a space, the marker, the body.
The row is read again right away, so its part in the outline has to survive. Two
readings have to agree for that: a row of data alone is split as it stands, and
a row with an inline comment is split after the white space around its data is
taken away. They do for a *tidy* text, which has no white space but spaces and
tabs at its start and none at its end. A row that has an inline comment already
goes on with the same comment.

## Results

* `Entry.ofData_trim`                — a tidy text says the same without the white space around it.
* `Text.form_extend_of_data`, `Text.form_extend_of_inline` — what an extended row consists of.
* `OutlineRow.ofText?_extend`        — an extended row keeps its part in the outline.
-/

namespace Marginalia

namespace Text

-- ---------------------------------------------------------------------------
-- Stripping
-- ---------------------------------------------------------------------------

theorem stripStart_append_of_all {p : Char → Bool} {lead : Text} (hLead : ∀ c ∈ lead, p c)
    (t : Text) :
    stripStart p (lead ++ t) = stripStart p t :=
  List.dropWhile_append_of_pos hLead

theorem stripEnd_append_of_all {p : Char → Bool} {tail : Text} (hTail : ∀ c ∈ tail, p c)
    (t : Text) :
    stripEnd p (t ++ tail) = stripEnd p t := by
  rw [stripEnd, List.reverse_append, List.dropWhile_append_of_pos (by simpa using hTail), stripEnd]

theorem strip_append_of_all {p : Char → Bool} {tail : Text} (hTail : ∀ c ∈ tail, p c) (t : Text) :
    strip p (t ++ tail) = strip p t := by
  have hStart : stripStart p (t ++ tail)
      = if (stripStart p t).isEmpty then [] else stripStart p t ++ tail := by
    rw [stripStart, List.dropWhile_append, ← stripStart, ← stripStart,
      (stripStart_eq_nil_iff p tail).mpr hTail]
  rw [strip, hStart, strip]
  split
  · next h => rw [List.isEmpty_iff.mp h]
  · exact stripEnd_append_of_all hTail _

theorem trim_append_of_all {tail : Text} (hTail : ∀ c ∈ tail, isBlank c) (t : Text) :
    trim (t ++ tail) = trim t :=
  strip_append_of_all hTail t

/-- Stripping the start stops at a character of another class, and so does
stripping the end. -/
theorem stripStart_append_cons {p : Char → Bool} {c : Char} (hc : p c = false) (upper lower : Text) :
    stripStart p (upper ++ c :: lower) = stripStart p upper ++ c :: lower := by
  have hLower : stripStart p (c :: lower) = c :: lower :=
    stripStart_of_head? fun d hd => Option.some.inj hd ▸ hc
  rw [stripStart, List.dropWhile_append, ← stripStart, ← stripStart, hLower]
  split
  · next hUpper => rw [List.isEmpty_iff.mp hUpper, List.nil_append]
  · rfl

theorem stripEnd_append_cons {p : Char → Bool} {c : Char} (hc : p c = false) (upper lower : Text) :
    stripEnd p (upper ++ c :: lower) = upper ++ c :: stripEnd p lower := by
  have hReverse : (upper ++ c :: lower).reverse = lower.reverse ++ c :: upper.reverse := by simp
  have hStart := stripStart_append_cons hc lower.reverse upper.reverse
  rw [stripStart, stripStart] at hStart
  rw [stripEnd, hReverse, hStart, stripEnd]
  simp

theorem trim_append_cons {c : Char} (hc : isBlank c = false) (upper lower : Text) :
    trim (upper ++ c :: lower) = stripStart isBlank upper ++ c :: stripEnd isBlank lower := by
  rw [trim, strip, stripStart_append_cons hc, stripEnd_append_cons hc]

theorem trim_append_space (t : Text) : trim (t ++ [' ']) = trim t := by
  apply trim_append_of_all
  intro c hc
  rw [List.mem_singleton.mp hc]
  rfl

/-- What is stripped off the end is blank. -/
theorem isBlank_of_mem_tail (t : Text) :
    ∀ c ∈ (t.reverse.takeWhile isBlank).reverse, isBlank c := by
  intro c hc
  exact List.mem_takeWhile_imp (List.mem_reverse.mp hc)

/-- White space at the end does not matter for trimming. -/
theorem trim_stripEnd (t : Text) : trim (stripEnd isBlank t) = trim t := by
  have h := trim_append_of_all (isBlank_of_mem_tail t) (stripEnd isBlank t)
  rw [stripEnd_append] at h
  exact h.symm

theorem allBlank_append (t more : Text) : allBlank (t ++ more) = (allBlank t && allBlank more) := by
  rw [allBlank, List.all_append, ← allBlank, ← allBlank]

theorem allBlank_stripEnd (t : Text) : allBlank (stripEnd isBlank t) = allBlank t := by
  have h := allBlank_append (stripEnd isBlank t) (t.reverse.takeWhile isBlank).reverse
  rw [stripEnd_append, show allBlank (t.reverse.takeWhile isBlank).reverse = true from
    List.all_eq_true.mpr (isBlank_of_mem_tail t), Bool.and_true] at h
  exact h.symm

-- ---------------------------------------------------------------------------
-- Tidy texts
-- ---------------------------------------------------------------------------

/-- An indented text has no white space but spaces and tabs at its start. -/
def Indented (t : Text) : Prop :=
  ∀ c ∈ t.takeWhile isBlank, isIndent c

instance (t : Text) : Decidable t.Indented :=
  decidable_of_iff ((t.takeWhile isBlank).all isIndent) List.all_eq_true

/-- A tidy text is indented and has no white space at its end. -/
structure Tidy (t : Text) : Prop where
  start : t.Indented
  finish : stripEnd isBlank t = t

instance (t : Text) : Decidable t.Tidy :=
  decidable_of_iff (t.Indented ∧ stripEnd isBlank t = t)
    ⟨fun h => ⟨h.1, h.2⟩, fun h => ⟨h.start, h.finish⟩⟩

/-- A tidy text is its indentation and its trimmed text. -/
theorem Tidy.eq_append_trim {t : Text} (hTidy : t.Tidy) : t = t.takeWhile isBlank ++ trim t := by
  -- the end of the text is also the end of what is left when its start is stripped
  have hSuffix : stripStart isBlank t <:+ t := List.dropWhile_suffix isBlank
  have hCore : stripEnd isBlank (stripStart isBlank t) = stripStart isBlank t := by
    refine List.rdropWhile_eq_self_iff.mpr fun hNe => ?_
    rw [hSuffix.getLast hNe]
    exact List.rdropWhile_eq_self_iff.mp hTidy.finish _
  rw [trim, strip, hCore, takeWhile_append_stripStart]

end Text

namespace Entry

-- ---------------------------------------------------------------------------
-- Indentation says nothing
-- ---------------------------------------------------------------------------

theorem hasKeyColon_append_of_not_mem {lead : Text} (hLead : ':' ∉ lead) (t : Text) :
    hasKeyColon (lead ++ t) = hasKeyColon t := by
  induction lead with
  | nil => rfl
  | cons c rest ih =>
    rw [List.mem_cons, not_or] at hLead
    rw [List.cons_append, hasKeyColon, ih hLead.2]
    simp [Ne.symm hLead.1]

theorem splitAtColon_append_of_not_mem {lead : Text} (hLead : ':' ∉ lead) (t : Text) :
    splitAtColon (lead ++ t) = (lead ++ (splitAtColon t).1, (splitAtColon t).2) := by
  have hColon : ∀ c ∈ lead, c != ':' := by
    intro c hc
    exact bne_iff_ne.mpr fun hEq => hLead (hEq ▸ hc)
  rw [splitAtColon, List.takeWhile_append_of_pos hColon, List.dropWhile_append_of_pos hColon,
    splitAtColon]

/-- White space holds no colon. -/
theorem colon_not_mem_of_blanks {t : Text} (hBlank : ∀ c ∈ t, isBlank c) : ':' ∉ t :=
  fun hMem => absurd (hBlank ':' hMem) (by decide)

theorem ofData_append_of_indents {lead : Text} (hLead : ∀ c ∈ lead, isIndent c) (t : Text) :
    ofData (lead ++ t) = ofData t := by
  have hColon : ':' ∉ lead := colon_not_mem_of_blanks fun c hc => isBlank_of_isIndent (hLead c hc)
  rw [ofData, Text.stripStart_append_of_all hLead, hasKeyColon_append_of_not_mem hColon,
    splitAtColon_append_of_not_mem hColon]
  simp only [Text.trimIndent, Text.strip, Text.stripStart_append_of_all hLead]
  rfl

/-- A tidy text says the same without the white space around it. -/
theorem ofData_trim {t : Text} (hTidy : t.Tidy) : ofData t.trim = ofData t := by
  have h := ofData_append_of_indents hTidy.start t.trim
  rw [← hTidy.eq_append_trim] at h
  exact h.symm

end Entry

namespace Text

-- ---------------------------------------------------------------------------
-- Depth
-- ---------------------------------------------------------------------------

/-- Only what stands before the first other character than a space or a tab
counts for the depth. -/
theorem columns_append_of_mem {level : Nat} {t : Text} {c : Char} (hMem : c ∈ t) (hc : ¬ isIndent c)
    (more : Text) : columns level (t ++ more) = columns level t := by
  induction t with
  | nil => cases hMem
  | cons e rest ih =>
    rw [List.cons_append, columns, columns]
    by_cases he : isIndent e
    · have hRest : c ∈ rest := by
        rcases List.mem_cons.mp hMem with rfl | h
        · exact absurd he hc
        · exact h
      rw [ih hRest]
    · rw [isIndent_iff, not_or] at he
      rw [if_neg he.1, if_neg he.2, if_neg he.1, if_neg he.2]

theorem depth_append_of_not_allBlank {t : Text} (hBlank : ¬ t.allBlank) (levelWidth : Nat)
    (more : Text) :
    depth levelWidth (t ++ more) = depth levelWidth t := by
  rw [allBlank, List.all_eq_true] at hBlank
  push Not at hBlank
  obtain ⟨c, hMem, hc⟩ := hBlank
  rw [depth, columns_append_of_mem hMem (mt isBlank_of_isIndent hc), depth]

-- ---------------------------------------------------------------------------
-- The marker of an extended row
-- ---------------------------------------------------------------------------

theorem splitAtMarkerFrom_append_of_some {delimited : Bool} {t before body : Text}
    (hSplit : splitAtMarkerFrom delimited t = some (before, body)) (more : Text) :
    splitAtMarkerFrom delimited (t ++ more) = some (before, body ++ more) := by
  induction t generalizing delimited before with
  | nil => simp [splitAtMarkerFrom] at hSplit
  | cons c rest ih =>
    rw [List.cons_append, splitAtMarkerFrom]
    rw [splitAtMarkerFrom] at hSplit
    split at hSplit
    · next hc =>
      obtain ⟨rfl, rfl⟩ : [] = before ∧ rest = body := by simpa using hSplit
      rw [if_pos hc]
    · next hc =>
      obtain ⟨parts, hParts, hEq⟩ := Option.map_eq_some_iff.mp hSplit
      obtain ⟨rfl, rfl⟩ : c :: parts.1 = before ∧ parts.2 = body := by simpa using hEq
      rw [if_neg hc, ih hParts]
      rfl

/-- The first marker after a text without one is the marker that is written
behind it. -/
theorem splitAtMarkerFrom_append_of_none {delimited : Bool} {t : Text}
    (hSplit : splitAtMarkerFrom delimited t = none) {c : Char} (hc : isIndent c) (body : Text) :
    splitAtMarkerFrom delimited (t ++ c :: marker :: body) = some (t ++ [c], body) := by
  induction t generalizing delimited with
  | nil =>
    have hSpace : (delimited && c == marker) = false := by
      rcases (isIndent_iff c).mp hc with rfl | rfl <;> cases delimited <;> rfl
    have hMarker : (isIndent c && marker == marker) = true := by rw [hc]; rfl
    rw [List.nil_append, splitAtMarkerFrom, hSpace, splitAtMarkerFrom, hMarker]
    rfl
  | cons e rest ih =>
    rw [List.cons_append, splitAtMarkerFrom]
    rw [splitAtMarkerFrom] at hSplit
    split at hSplit
    · cases hSplit
    · next he =>
      rw [if_neg he, ih (Option.map_eq_none_iff.mp hSplit)]
      rfl

/-- No marker starts a comment before the first one. -/
theorem splitAtMarkerFrom_of_front {delimited : Bool} {t before body front : Text}
    (hSplit : splitAtMarkerFrom delimited t = some (before, body)) (hFront : front <+: before) :
    splitAtMarkerFrom delimited front = none := by
  induction t generalizing delimited before front with
  | nil => simp [splitAtMarkerFrom] at hSplit
  | cons c rest ih =>
    rw [splitAtMarkerFrom] at hSplit
    split at hSplit
    · obtain ⟨rfl, rfl⟩ : [] = before ∧ rest = body := by simpa using hSplit
      rw [List.prefix_nil.mp hFront]
      rfl
    · next hc =>
      obtain ⟨parts, hParts, hEq⟩ := Option.map_eq_some_iff.mp hSplit
      obtain ⟨rfl, rfl⟩ : c :: parts.1 = before ∧ parts.2 = body := by simpa using hEq
      rcases List.prefix_cons_iff.mp hFront with rfl | ⟨more, rfl, hMore⟩
      · rfl
      · rw [splitAtMarkerFrom, if_neg hc, ih hParts hMore]
        rfl

-- ---------------------------------------------------------------------------
-- The form of an extended row
-- ---------------------------------------------------------------------------

theorem form_eq_data_iff (t : Text) : t.form = .data ↔ ¬ t.allBlank ∧ t.splitAtMarker = none := by
  unfold form
  split
  · simp_all
  · split <;> simp_all
    split <;> simp

theorem form_eq_blank_iff (t : Text) : t.form = .blank ↔ t.allBlank := by
  unfold form
  split
  · simp_all
  · split
    · simp_all
    · split <;> simp_all

theorem form_eq_full_iff (t body : Text) :
    t.form = .full body ↔
      ¬ t.allBlank ∧ ∃ before : Text, before.allBlank ∧ t.splitAtMarker = some (before, body) := by
  unfold form
  split
  · simp_all
  · split
    · simp_all
    · split <;> simp_all

theorem not_allBlank_of_splitAtMarker {t before body : Text}
    (hSplit : t.splitAtMarker = some (before, body))
    (hBefore : ¬ before.allBlank) : ¬ t.allBlank := by
  rw [splitAtMarker_eq_some hSplit, allBlank_append]
  simp [hBefore]

theorem form_eq_inline_iff (t before body : Text) :
    t.form = .inline before body ↔ ¬ before.allBlank ∧ t.splitAtMarker = some (before, body) := by
  constructor
  · intro hForm
    unfold form at hForm
    split at hForm
    · cases hForm
    · split at hForm
      · cases hForm
      · next hSplit =>
        split at hForm
        · cases hForm
        · next hBefore =>
          obtain ⟨rfl, rfl⟩ := RowForm.inline.inj hForm
          exact ⟨hBefore, hSplit⟩
  · rintro ⟨hBefore, hSplit⟩
    rw [form, if_neg (not_allBlank_of_splitAtMarker hSplit hBefore), hSplit]
    exact if_neg hBefore

theorem form_extend_of_data {t : Text} (hForm : t.form = .data) (body : Text) :
    (t ++ ' ' :: marker :: body).form = .inline (t ++ [' ']) body := by
  obtain ⟨hBlank, hSplit⟩ := (form_eq_data_iff t).mp hForm
  rw [form_eq_inline_iff, allBlank_append]
  exact ⟨by simp [hBlank], splitAtMarkerFrom_append_of_none hSplit (by decide) body⟩

theorem form_extend_of_inline {t before body : Text} (hForm : t.form = .inline before body)
    (more : Text) :
    (t ++ more).form = .inline before (body ++ more) := by
  obtain ⟨hBefore, hSplit⟩ := (form_eq_inline_iff t before body).mp hForm
  rw [form_eq_inline_iff]
  exact ⟨hBefore, splitAtMarkerFrom_append_of_some hSplit more⟩

/-- An inline comment can be written at the end of a row that has one already,
and of a tidy row of data. -/
inductive Extensible (t : Text) : Prop
  | inline {before body : Text} (hForm : t.form = .inline before body)
  | data (hForm : t.form = .data) (hTidy : t.Tidy)

/-- An extended row can be extended again. -/
theorem Extensible.extend {t : Text} (hExt : t.Extensible) (body : Text) :
    (t ++ ' ' :: marker :: body).Extensible := by
  cases hExt with
  | inline hForm => exact .inline (form_extend_of_inline hForm _)
  | data hForm _ => exact .inline (form_extend_of_data hForm body)

end Text

namespace OutlineRow

/-- A line has its place in the outline by its depth and by what it says. -/
theorem ofLine_congr {levelWidth : Nat} {l m : Line}
    (hDepth : l.depth levelWidth = m.depth levelWidth)
    (hEntry : l.entry = m.entry) : ofLine levelWidth l = ofLine levelWidth m := by
  rw [ofLine, ofLine, hDepth, Line.isItem, Line.isItem, Line.key, Line.key, hEntry]

theorem ofText?_of_data {t : Text} (hForm : t.form = .data) (levelWidth : Nat) :
    ofText? levelWidth t = some (ofLine levelWidth (.ofData 0 t t)) := by
  rw [ofText?, Row.dataLine?_read, hForm]
  rfl

theorem ofText?_of_inline {t before body : Text} (hForm : t.form = .inline before body)
    (levelWidth : Nat) :
    ofText? levelWidth t = some (ofLine levelWidth (.ofData 0 t before.trim)) := by
  rw [ofText?, Row.dataLine?_read, hForm]
  rfl

/-- What is written behind an inline comment has no part in the outline. -/
theorem ofText?_append_of_inline {t before body : Text} (hForm : t.form = .inline before body)
    (levelWidth : Nat) (more : Text) : ofText? levelWidth (t ++ more) = ofText? levelWidth t := by
  rw [ofText?_of_inline (Text.form_extend_of_inline hForm more), ofText?_of_inline hForm]
  congr 1
  refine ofLine_congr ?_ rfl
  obtain ⟨hBefore, hSplit⟩ := (Text.form_eq_inline_iff t _ _).mp hForm
  have hBlank := Text.not_allBlank_of_splitAtMarker hSplit hBefore
  exact Text.depth_append_of_not_allBlank hBlank levelWidth _

/-- **An extended row keeps its part in the outline.** -/
theorem ofText?_extend {t : Text} (hExt : t.Extensible) (levelWidth : Nat) (body : Text) :
    ofText? levelWidth (t ++ ' ' :: marker :: body) = ofText? levelWidth t := by
  cases hExt with
  | inline hForm => exact ofText?_append_of_inline hForm levelWidth _
  | data hForm hTidy =>
    rw [ofText?_of_inline (Text.form_extend_of_data hForm body), ofText?_of_data hForm]
    congr 1
    apply ofLine_congr
    · exact Text.depth_append_of_not_allBlank ((Text.form_eq_data_iff t).mp hForm).1 levelWidth _
    · show Entry.ofData (t ++ [' ']).trim = Entry.ofData t
      rw [Text.trim_append_space, Entry.ofData_trim hTidy]

end OutlineRow

end Marginalia
