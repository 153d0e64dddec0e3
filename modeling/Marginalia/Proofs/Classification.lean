import Marginalia.Proofs.Extension

/-!
# Reading a row exactly

What a row holds is settled by its first marker, the first `#` that stands at the
start of the row or right after a space or a tab. The marker is looked for among
the bytes of the row, and the row is then cut before and behind the byte that was
found; white space is told from its characters. The two go together because the
marker, the space and the tab are single bytes that are no part of any other
character: a byte of one of them stands between whole characters, so no cut goes
through a character, and the bytes give the same parts as the characters.

## Results

* `Text.cutAt?_eq_some_iff`           — a text can be cut exactly between its characters.
* `Text.exists_of_utf8_eq`            — a byte below 128 is a character of its own.
* `Text.marksAt_utf8_iff`             — a byte marks a comment exactly where a character does.
* `Text.splitAtMarker_eq_some_iff`    — the parts around the first marker, without the search for it.
* `Text.markerOffset?_utf8`           — both searches find the same marker.
* `Row.readCut?_eq_read`              — cutting the bytes never fails, and reads the same row.
* `reading_is_exact`                  — what a row is read as, by its white space and its markers.
-/

namespace Marginalia

namespace Text

-- ---------------------------------------------------------------------------
-- Bytes
-- ---------------------------------------------------------------------------

/-- The bytes of a text in UTF-8. -/
def utf8 (t : Text) : List UInt8 :=
  t.flatMap String.utf8EncodeChar

/-- The text that bytes encode, if they encode one. -/
def ofUtf8? (bytes : List UInt8) : Option Text :=
  bytes.toByteArray.utf8Decode?.map Array.toList

/-- The parts of a text before and behind a byte offset. There are none if the
offset lies inside a character, for the bytes on its sides encode no text, or
behind the end. -/
def cutAt? (t : Text) (offset : Nat) : Option (Text × Text) :=
  if offset ≤ t.utf8.length then
    (ofUtf8? (t.utf8.take offset)).bind fun front =>
      (ofUtf8? (t.utf8.drop offset)).map fun back => (front, back)
  else none

variable {t front back before body : Text}

theorem utf8_append (front back : Text) : (front ++ back).utf8 = front.utf8 ++ back.utf8 :=
  List.flatMap_append

theorem utf8_cons (c : Char) (t : Text) : utf8 (c :: t) = String.utf8EncodeChar c ++ t.utf8 :=
  List.flatMap_cons

theorem ofUtf8?_utf8 (t : Text) : ofUtf8? t.utf8 = some t := by
  have hDecode : t.utf8.toByteArray.utf8Decode? = some t.toArray := List.utf8Decode?_utf8Encode
  rw [ofUtf8?, hDecode, Option.map_some, List.toList_toArray]

theorem utf8_of_ofUtf8? {bytes : List UInt8} (hText : ofUtf8? bytes = some t) : t.utf8 = bytes := by
  obtain ⟨chars, hDecode, rfl⟩ := Option.map_eq_some_iff.mp hText
  have hSome : bytes.toByteArray.utf8Decode?.isSome := by rw [hDecode]; rfl
  have hEncode := ByteArray.utf8Encode_get_utf8Decode? (h := hSome)
  simp only [hDecode, Option.get_some] at hEncode
  exact List.toByteArray_inj.mp hEncode

theorem utf8_injective {s t : Text} (hBytes : s.utf8 = t.utf8) : s = t := by
  have hText := ofUtf8?_utf8 s
  rw [hBytes, ofUtf8?_utf8] at hText
  exact (Option.some.inj hText).symm

/-- **A text can be cut exactly between its characters.** -/
theorem cutAt?_eq_some_iff {offset : Nat} :
    t.cutAt? offset = some (front, back) ↔ t = front ++ back ∧ front.utf8.length = offset := by
  rw [cutAt?]
  constructor
  · intro hCut
    split at hCut
    · next hLe =>
      obtain ⟨first, hFirst, hBack⟩ := Option.bind_eq_some_iff.mp hCut
      obtain ⟨rest, hRest, hParts⟩ := Option.map_eq_some_iff.mp hBack
      obtain ⟨rfl, rfl⟩ := Prod.mk.inj hParts
      refine ⟨utf8_injective ?_, ?_⟩
      · rw [utf8_append, utf8_of_ofUtf8? hFirst, utf8_of_ofUtf8? hRest, List.take_append_drop]
      · rw [utf8_of_ofUtf8? hFirst, List.length_take, Nat.min_eq_left hLe]
    · cases hCut
  · rintro ⟨rfl, rfl⟩
    rw [utf8_append, if_pos (by simp), List.take_left, List.drop_left, ofUtf8?_utf8, ofUtf8?_utf8]
    rfl

/-- A character below 128 is one byte. -/
theorem utf8EncodeChar_of_lt {c : Char} (hc : c.toNat < 128) :
    String.utf8EncodeChar c = [UInt8.ofNat c.toNat] := by
  have hLe : c.val.toNat ≤ 127 := Nat.le_of_lt_succ hc
  rw [String.utf8EncodeChar.eq_1, if_pos hLe]
  rfl

/-- No byte of another character is below 128. -/
theorem le_of_mem_utf8EncodeChar {c : Char} (hc : 128 ≤ c.toNat) {b : UInt8}
    (hb : b ∈ String.utf8EncodeChar c) : 128 ≤ b.toNat := by
  have hNot : ¬ c.val.toNat ≤ 127 := Nat.not_le.mpr hc
  rw [String.utf8EncodeChar.eq_1, if_neg hNot] at hb
  split_ifs at hb <;> simp only [List.mem_cons, List.not_mem_nil, or_false] at hb
  · rcases hb with rfl | rfl <;> simp <;> omega
  · rcases hb with rfl | rfl | rfl <;> simp <;> omega
  · rcases hb with rfl | rfl | rfl | rfl <;> simp <;> omega

theorem toNat_ofNat_toNat {c : Char} (hc : c.toNat < 128) : (UInt8.ofNat c.toNat).toNat = c.toNat := by
  rw [UInt8.toNat_ofNat']
  omega

/-- A byte below 128 in a character is the whole character. -/
theorem utf8EncodeChar_of_mem {c : Char} {b : UInt8} (hMem : b ∈ String.utf8EncodeChar c)
    (hb : b.toNat < 128) : String.utf8EncodeChar c = [b] ∧ c.toNat = b.toNat := by
  have hc : c.toNat < 128 := by
    by_contra hNot
    have := le_of_mem_utf8EncodeChar (Nat.le_of_not_lt hNot) hMem
    omega
  rw [utf8EncodeChar_of_lt hc, List.mem_singleton] at hMem
  refine ⟨by rw [utf8EncodeChar_of_lt hc, hMem], ?_⟩
  rw [hMem, toNat_ofNat_toNat hc]

/-- **A byte below 128 is a character of its own**, and the bytes before it are
those of a text. By induction on the text: the byte is the first character, or it
stands behind all of its bytes. -/
theorem exists_of_utf8_eq {xs ys : List UInt8} {b : UInt8} (hb : b.toNat < 128)
    (hBytes : t.utf8 = xs ++ b :: ys) :
    ∃ front c back, t = front ++ c :: back ∧ utf8 front = xs ∧ c.toNat = b.toNat := by
  induction t generalizing xs with
  | nil => simp [utf8] at hBytes
  | cons c rest ih =>
    have hLater : ∀ more, xs = String.utf8EncodeChar c ++ more → utf8 rest = more ++ b :: ys →
        ∃ front d back, c :: rest = front ++ d :: back ∧ utf8 front = xs ∧ d.toNat = b.toNat := by
      rintro more rfl hRest
      obtain ⟨front, d, back, rfl, rfl, hd⟩ := ih hRest
      exact ⟨c :: front, d, back, rfl, utf8_cons c front, hd⟩
    rw [utf8_cons] at hBytes
    rcases List.append_eq_append_iff.mp hBytes with ⟨more, hxs, hRest⟩ | ⟨own, hOwn, hRest⟩
    · exact hLater more hxs hRest
    · cases own with
      | nil => exact hLater [] (by simpa using hOwn.symm) (by simpa using hRest.symm)
      | cons d own =>
        obtain ⟨rfl, -⟩ := List.cons.inj hRest
        obtain ⟨hWhole, hc⟩ := utf8EncodeChar_of_mem (by rw [hOwn]; simp) hb
        obtain rfl : xs = [] := by
          have hParts := hOwn.symm.trans hWhole
          cases xs with
          | nil => rfl
          | cons x more => simp at hParts
        exact ⟨[], c, rest, rfl, rfl, hc⟩

-- ---------------------------------------------------------------------------
-- Markers
-- ---------------------------------------------------------------------------

/-- A marker stands between the two parts, at the start of the text or right after
a space or a tab. -/
structure MarkedBetween (t before body : Text) : Prop where
  eq_append : t = before ++ marker :: body
  delimited : ∀ c ∈ before.getLast?, isIndent c

/-- The first marker stands between the two parts. -/
structure FirstMarkedBetween (t before body : Text) : Prop extends MarkedBetween t before body where
  first : ∀ front rest, ¬ before.MarkedBetween front rest

/-- The last character of a text delimits a marker behind it; `delimited` says
whether an empty text does. -/
def delimitsFrom (delimited : Bool) (t : Text) : Bool :=
  t.getLast?.elim delimited isIndent

theorem delimitsFrom_cons (delimited : Bool) (c : Char) (rest : Text) :
    delimitsFrom delimited (c :: rest) = delimitsFrom (isIndent c) rest := by
  cases rest with
  | nil => rfl
  | cons d more =>
    rw [delimitsFrom, delimitsFrom, List.getLast?_cons_cons, List.getLast?_eq_getLast_of_ne_nil (by simp)]
    rfl

theorem delimitsFrom_true_iff (t : Text) : delimitsFrom true t ↔ ∀ c ∈ t.getLast?, isIndent c := by
  rw [delimitsFrom]
  cases t.getLast? <;> simp

theorem delimitsFrom_of_splitAtMarkerFrom {delimited : Bool}
    (hSplit : splitAtMarkerFrom delimited t = some (before, body)) : delimitsFrom delimited before := by
  induction t generalizing delimited before with
  | nil => simp [splitAtMarkerFrom] at hSplit
  | cons c rest ih =>
    rw [splitAtMarkerFrom] at hSplit
    split at hSplit
    · next hc =>
      obtain ⟨rfl, rfl⟩ : [] = before ∧ rest = body := by simpa using hSplit
      simp_all [delimitsFrom]
    · obtain ⟨parts, hParts, hEq⟩ := Option.map_eq_some_iff.mp hSplit
      obtain ⟨rfl, rfl⟩ : c :: parts.1 = before ∧ parts.2 = body := by simpa using hEq
      rw [delimitsFrom_cons]
      exact ih hParts

/-- A marker behind a text without one is the first. -/
theorem splitAtMarkerFrom_append_marker {delimited : Bool}
    (hBefore : splitAtMarkerFrom delimited before = none) (hDelimits : delimitsFrom delimited before)
    (body : Text) : splitAtMarkerFrom delimited (before ++ marker :: body) = some (before, body) := by
  induction before generalizing delimited with
  | nil =>
    have hHere : (delimited && marker == marker) = true := by simpa [delimitsFrom] using hDelimits
    rw [List.nil_append, splitAtMarkerFrom, if_pos hHere]
  | cons c rest ih =>
    rw [delimitsFrom_cons] at hDelimits
    rw [splitAtMarkerFrom] at hBefore
    rw [List.cons_append, splitAtMarkerFrom]
    split at hBefore
    · cases hBefore
    · next hc =>
      rw [if_neg hc, ih (Option.map_eq_none_iff.mp hBefore) hDelimits]
      rfl

theorem markedBetween_of_splitAtMarker (hSplit : t.splitAtMarker = some (before, body)) :
    t.MarkedBetween before body :=
  ⟨splitAtMarker_eq_some hSplit, (delimitsFrom_true_iff before).mp (delimitsFrom_of_splitAtMarkerFrom hSplit)⟩

theorem MarkedBetween.splitAtMarker_eq (hMarked : t.MarkedBetween before body)
    (hBefore : before.splitAtMarker = none) : t.splitAtMarker = some (before, body) := by
  rw [hMarked.eq_append]
  exact splitAtMarkerFrom_append_marker hBefore ((delimitsFrom_true_iff before).mpr hMarked.delimited) body

/-- A text is not split exactly if no marker stands in it. -/
theorem splitAtMarker_eq_none_iff :
    t.splitAtMarker = none ↔ ∀ before body, ¬ t.MarkedBetween before body := by
  constructor
  · intro hNone before body hMarked
    cases hBefore : before.splitAtMarker with
    | none =>
      rw [hMarked.splitAtMarker_eq hBefore] at hNone
      cases hNone
    | some parts =>
      have hWhole := splitAtMarkerFrom_append_of_some hBefore (marker :: body)
      rw [← hMarked.eq_append, ← splitAtMarker, hNone] at hWhole
      cases hWhole
  · intro hNone
    cases hSplit : t.splitAtMarker with
    | none => rfl
    | some parts => exact absurd (markedBetween_of_splitAtMarker hSplit) (hNone parts.1 parts.2)

/-- **The parts around the first marker**, said without the search for it. -/
theorem splitAtMarker_eq_some_iff :
    t.splitAtMarker = some (before, body) ↔ t.FirstMarkedBetween before body := by
  constructor
  · intro hSplit
    have hBefore : before.splitAtMarker = none := splitAtMarkerFrom_of_front hSplit (List.prefix_refl before)
    exact ⟨markedBetween_of_splitAtMarker hSplit, splitAtMarker_eq_none_iff.mp hBefore⟩
  · intro hFirst
    exact hFirst.splitAtMarker_eq (splitAtMarker_eq_none_iff.mpr hFirst.first)

-- ---------------------------------------------------------------------------
-- Markers among bytes
-- ---------------------------------------------------------------------------

/-- The byte of the marker. -/
def markerByte : UInt8 := 0x23

def isIndentByte (b : UInt8) : Bool :=
  b == 0x20 || b == 0x09

/-- The byte at an offset is a marker's, first of all bytes or right after that of a
space or a tab. -/
def marksAt (bytes : List UInt8) (offset : Nat) : Bool :=
  bytes[offset]? == some markerByte && (offset == 0 || bytes[offset - 1]?.any isIndentByte)

/-- The offset of the first byte that marks a comment. -/
def markerOffset? (bytes : List UInt8) : Option Nat :=
  (List.range bytes.length).find? (marksAt bytes)

theorem utf8_cons_marker (t : Text) : utf8 (marker :: t) = markerByte :: t.utf8 :=
  rfl

theorem isIndent_iff_of_toNat_eq {c : Char} {b : UInt8} (hc : c.toNat = b.toNat) :
    isIndent c ↔ isIndentByte b := by
  rw [isIndent_iff, isIndentByte, ← Char.toNat_inj, ← Char.toNat_inj, hc]
  simp [← UInt8.toNat_inj]

/-- The last byte of a character is that of a space or a tab exactly if the
character is one. -/
theorem any_isIndentByte_getLast? (c : Char) :
    (String.utf8EncodeChar c).getLast?.any isIndentByte ↔ isIndent c := by
  by_cases hc : c.toNat < 128
  · rw [utf8EncodeChar_of_lt hc, isIndent_iff_of_toNat_eq (toNat_ofNat_toNat hc).symm]
    rfl
  · have hIndent : ¬ isIndent c := by
      rw [isIndent_iff]
      rintro (rfl | rfl) <;> exact hc (by decide)
    refine iff_of_false (fun hAny => ?_) hIndent
    obtain ⟨b, hLast, hByte⟩ := Option.any_eq_true _ _ |>.mp hAny
    have hLe := le_of_mem_utf8EncodeChar (Nat.le_of_not_lt hc) (List.mem_of_getLast? hLast)
    rw [isIndentByte, Bool.or_eq_true, beq_iff_eq, beq_iff_eq] at hByte
    rcases hByte with rfl | rfl <;> exact absurd hLe (by decide)

/-- A marker's byte right behind a text marks a comment exactly if the character
does. -/
theorem marksAt_length_utf8_iff (before : Text) (rest : List UInt8) :
    marksAt (before.utf8 ++ markerByte :: rest) before.utf8.length ↔
      ∀ c ∈ before.getLast?, isIndent c := by
  have hHere : (before.utf8 ++ markerByte :: rest)[before.utf8.length]? = some markerByte := by
    rw [List.getElem?_append_right (Nat.le_refl _), Nat.sub_self]
    rfl
  rw [marksAt, hHere, BEq.rfl, Bool.true_and]
  rcases List.eq_nil_or_concat before with rfl | ⟨front, c, hFront⟩
  · simp [utf8]
  · obtain rfl : before = front ++ [c] := by rw [hFront, List.concat_eq_append]
    have hPos : 0 < (String.utf8EncodeChar c).length :=
      List.length_pos_of_ne_nil String.utf8EncodeChar_ne_nil
    have hBytes : utf8 (front ++ [c]) = utf8 front ++ String.utf8EncodeChar c := by
      rw [utf8_append, utf8_cons]
      exact congrArg _ (List.append_nil _)
    have hLast : (utf8 (front ++ [c]) ++ markerByte :: rest)[(utf8 (front ++ [c])).length - 1]?
        = (String.utf8EncodeChar c).getLast? := by
      rw [hBytes, List.getElem?_append_left (by rw [List.length_append]; omega),
        ← List.getLast?_eq_getElem?, List.getLast?_append_of_ne_nil _ String.utf8EncodeChar_ne_nil]
    have hNe : ((utf8 (front ++ [c])).length == 0) = false := by
      rw [beq_eq_false_iff_ne, hBytes, List.length_append]
      omega
    rw [hNe, Bool.false_or, hLast, any_isIndentByte_getLast?]
    simp

/-- **A byte marks a comment exactly where a character does.** -/
theorem marksAt_utf8_iff {offset : Nat} :
    marksAt t.utf8 offset ↔
      ∃ before body, t.MarkedBetween before body ∧ (utf8 before).length = offset := by
  constructor
  · intro hMarks
    have hByte := hMarks
    rw [marksAt, Bool.and_eq_true, beq_iff_eq] at hByte
    obtain ⟨hLt, hByte⟩ := List.getElem?_eq_some_iff.mp hByte.1
    have hBytes : t.utf8 = t.utf8.take offset ++ markerByte :: t.utf8.drop (offset + 1) := by
      conv => lhs; rw [← List.take_append_drop offset t.utf8, List.drop_eq_getElem_cons hLt, hByte]
    obtain ⟨before, c, body, hText, hBefore, hc⟩ := exists_of_utf8_eq (by decide) hBytes
    obtain rfl : c = marker := Char.toNat_inj.mp hc
    have hLength : (utf8 before).length = offset := by
      rw [hBefore, List.length_take]
      omega
    refine ⟨before, body, ⟨hText, ?_⟩, hLength⟩
    rw [hBytes, ← hBefore, ← hLength] at hMarks
    exact (marksAt_length_utf8_iff before _).mp hMarks
  · rintro ⟨before, body, hMarked, rfl⟩
    rw [hMarked.eq_append, utf8_append, utf8_cons_marker]
    exact (marksAt_length_utf8_iff before body.utf8).mpr hMarked.delimited

/-- A marker further to the left stands in the part before this one. -/
theorem MarkedBetween.markedBetween_before {front rest : Text} (hMarked : t.MarkedBetween before body)
    (hFront : t.MarkedBetween front rest) (hLt : (utf8 front).length < (utf8 before).length) :
    ∃ more, before.MarkedBetween front more := by
  rcases List.append_eq_append_iff.mp (hMarked.eq_append.symm.trans hFront.eq_append) with
    ⟨more, rfl, -⟩ | ⟨more, rfl, hMore⟩
  · rw [utf8_append, List.length_append] at hLt
    omega
  · cases more with
    | nil => simp at hLt
    | cons c more =>
      obtain ⟨rfl, -⟩ := List.cons.inj hMore
      exact ⟨more, rfl, hFront.delimited⟩

/-- **Both searches find the same marker.** -/
theorem markerOffset?_utf8 (t : Text) :
    markerOffset? t.utf8 = t.splitAtMarker.map fun parts => (utf8 parts.1).length := by
  cases hSplit : t.splitAtMarker with
  | none =>
    rw [Option.map_none, markerOffset?, List.find?_eq_none]
    intro offset _ hMarks
    obtain ⟨before, body, hMarked, -⟩ := marksAt_utf8_iff.mp hMarks
    exact splitAtMarker_eq_none_iff.mp hSplit before body hMarked
  | some parts =>
    obtain ⟨hMarked, hFirst⟩ := splitAtMarker_eq_some_iff.mp hSplit
    rw [Option.map_some, markerOffset?, List.find?_range_eq_some]
    refine ⟨marksAt_utf8_iff.mpr ⟨_, _, hMarked, rfl⟩, ?_, fun offset hLt => ?_⟩
    · rw [List.mem_range, hMarked.eq_append, utf8_append, utf8_cons_marker, List.length_append]
      simp
    · rw [Bool.not_eq_true', Bool.eq_false_iff]
      intro hMarks
      obtain ⟨front, rest, hFront, rfl⟩ := marksAt_utf8_iff.mp hMarks
      obtain ⟨more, hEarlier⟩ := hMarked.markedBetween_before hFront hLt
      exact hFirst front more hEarlier

end Text

-- ---------------------------------------------------------------------------
-- Rows
-- ---------------------------------------------------------------------------

namespace Row

/-- A row as it is read from its bytes: cut before the marker's byte and behind it.
There is no row if one of the cuts fails. -/
def readCut? (number : Nat) (text : Text) : Option Row :=
  if text.trim.isEmpty then
    some (.comment { line := .ofBlank number text, body := [], form := .blank })
  else
    match Text.markerOffset? text.utf8 with
    | none => some (.data (.ofText number text))
    | some offset =>
      (text.cutAt? offset).bind fun atMarker =>
        (text.cutAt? (offset + 1)).map fun behind =>
          if atMarker.1.trim.isEmpty then
            .comment { line := .ofBlank number text, body := behind.2, form := .full }
          else
            .comment { line := .ofData number text atMarker.1.trim, body := behind.2, form := .inline }

theorem isEmpty_trim (t : Text) : t.trim.isEmpty = t.allBlank := by
  rw [Bool.eq_iff_iff, List.isEmpty_iff, Text.allBlank_iff_trim]

/-- **Cutting the bytes never fails, and reads the same row.** -/
theorem readCut?_eq_read (number : Nat) (text : Text) : readCut? number text = some (read number text) := by
  rw [readCut?, read, Text.form, isEmpty_trim, Text.markerOffset?_utf8]
  by_cases hBlank : text.allBlank = true
  · rw [if_pos hBlank, if_pos hBlank]
  · rw [if_neg hBlank, if_neg hBlank]
    cases hSplit : text.splitAtMarker with
    | none => rfl
    | some parts =>
      obtain ⟨before, body⟩ := parts
      have hText := Text.splitAtMarker_eq_some hSplit
      have hAtMarker : text.cutAt? (Text.utf8 before).length = some (before, marker :: body) :=
        Text.cutAt?_eq_some_iff.mpr ⟨hText, rfl⟩
      have hBehind : text.cutAt? ((Text.utf8 before).length + 1) = some (before ++ [marker], body) := by
        refine Text.cutAt?_eq_some_iff.mpr ⟨by rw [hText, List.append_assoc, List.singleton_append], ?_⟩
        rw [Text.utf8_append, List.length_append]
        rfl
      simp only [Option.map_some]
      rw [hAtMarker, hBehind, Option.bind_some, Option.map_some, isEmpty_trim]
      split <;> rfl

variable {number : Nat} {text before body : Text}

theorem exists_blank_iff :
    (∃ comment, read number text = .comment comment ∧ comment.form = .blank) ↔ text.allBlank := by
  rw [← Text.form_eq_blank_iff, read]
  cases text.form with
  | blank => exact iff_of_true ⟨_, rfl, rfl⟩ rfl
  | data | full | inline => simp

theorem exists_data_iff (hBlank : ¬ text.allBlank) :
    (∃ line, read number text = .data line) ↔ text.splitAtMarker = none := by
  rw [read]
  cases hForm : text.form with
  | data => exact iff_of_true ⟨_, rfl⟩ ((Text.form_eq_data_iff text).mp hForm).2
  | blank | full | inline =>
    refine iff_of_false (by simp) fun hNone => ?_
    rw [(Text.form_eq_data_iff text).mpr ⟨hBlank, hNone⟩] at hForm
    cases hForm

theorem exists_comment_of_splitAtMarker (hBlank : ¬ text.allBlank)
    (hSplit : text.splitAtMarker = some (before, body)) :
    ∃ comment, read number text = .comment comment ∧ comment.body = body ∧
      comment.form = if before.allBlank then .full else .inline := by
  rw [read, Text.form, if_neg hBlank, hSplit]
  by_cases hBefore : before.allBlank = true
  · simp only [if_pos hBefore]
    exact ⟨_, rfl, rfl, rfl⟩
  · simp only [if_neg hBefore]
    exact ⟨_, rfl, rfl, rfl⟩

end Row

/-- **What a row is read as.** Its bytes can be cut at the marker, which gives the
same row, and its text is kept. It is a blank comment exactly if it has nothing but
white space. Otherwise it is data exactly if no marker stands at its start or right
after a space or a tab; and if one does, the first one parts the row in the only
way, with the body of the comment behind it, and the comment is full if there is
nothing but white space before it and inline if there is more. -/
theorem reading_is_exact (number : Nat) (text : Text) :
    Row.readCut? number text = some (.read number text) ∧
    (Row.read number text).line.text = text ∧
    ((∃ comment, Row.read number text = .comment comment ∧ comment.form = .blank) ↔
      ∀ c ∈ text, isBlank c) ∧
    ((∃ c ∈ text, ¬ isBlank c) →
      ((∃ line, Row.read number text = .data line) ↔ ∀ before body, ¬ text.MarkedBetween before body) ∧
      ((∃ before body, text.MarkedBetween before body) →
        ∃ before body, text.FirstMarkedBetween before body ∧
          (∀ front rest, text.FirstMarkedBetween front rest → front = before ∧ rest = body) ∧
          ∃ comment, Row.read number text = .comment comment ∧ comment.body = body ∧
            comment.form = if before.allBlank then .full else .inline)) := by
  have hAll : text.allBlank ↔ ∀ c ∈ text, isBlank c := List.all_eq_true
  refine ⟨Row.readCut?_eq_read number text, Row.text_read number text, ?_, fun hSome => ?_⟩
  · rw [Row.exists_blank_iff, hAll]
  · have hBlank : ¬ text.allBlank := by
      rw [hAll]
      push Not
      exact hSome
    rw [Row.exists_data_iff hBlank, Text.splitAtMarker_eq_none_iff]
    refine ⟨Iff.rfl, fun ⟨front, rest, hMarked⟩ => ?_⟩
    cases hSplit : text.splitAtMarker with
    | none => exact absurd hMarked (Text.splitAtMarker_eq_none_iff.mp hSplit front rest)
    | some parts =>
      obtain ⟨before, body⟩ := parts
      refine ⟨before, body, Text.splitAtMarker_eq_some_iff.mp hSplit, fun front rest hFirst => ?_,
        Row.exists_comment_of_splitAtMarker hBlank hSplit⟩
      have hSame := (Text.splitAtMarker_eq_some_iff.mpr hFirst).symm.trans hSplit
      exact Prod.mk.inj (Option.some.inj hSame)

/-- A no-break space delimits no marker, and a tab does, so the row is data up to
its second marker. -/
theorem reading_is_exact_unicode :
    (∃ c ∈ "é:\u00a0#\t# ü #".toList, ¬ isBlank c) ∧
    Text.MarkedBetween "é:\u00a0#\t# ü #".toList "é:\u00a0#\t# ü ".toList [] ∧
    Row.readCut? 3 "é:\u00a0#\t# ü #".toList = some (.read 3 "é:\u00a0#\t# ü #".toList) ∧
    ∃ comment, Row.read 3 "é:\u00a0#\t# ü #".toList = .comment comment ∧
      comment.body = " ü #".toList ∧ comment.form = .inline := by
  have hSome : ∃ c ∈ "é:\u00a0#\t# ü #".toList, ¬ isBlank c := ⟨'é', by decide, by decide⟩
  have hMarked : Text.MarkedBetween "é:\u00a0#\t# ü #".toList "é:\u00a0#\t# ü ".toList [] :=
    ⟨rfl, (Text.delimitsFrom_true_iff _).mp (by decide)⟩
  have hFirst : Text.FirstMarkedBetween "é:\u00a0#\t# ü #".toList "é:\u00a0#\t".toList " ü #".toList :=
    Text.splitAtMarker_eq_some_iff.mp (by decide)
  obtain ⟨hCut, -, -, hRead⟩ := reading_is_exact 3 "é:\u00a0#\t# ü #".toList
  obtain ⟨before, body, -, hOnly, comment, hComment, hBody, hForm⟩ := (hRead hSome).2 ⟨_, _, hMarked⟩
  obtain ⟨rfl, rfl⟩ := hOnly _ _ hFirst
  exact ⟨hSome, hMarked, hCut, comment, hComment, hBody, hForm⟩

end Marginalia
