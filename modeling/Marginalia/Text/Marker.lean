import Marginalia.Text.Blank

/-!
# The comment marker

A comment starts at a marker, the character `#`, that stands at the start of its
row or right after a space or a tab; anywhere else the character is part of a
word.

Keys and values are kept with every marker masked, so that a kept text never
holds a marker. Reading them turns each mask back into a marker, whoever wrote
it.

* `Text.splitAtMarker`, `Text.splitAtMarker_eq_some` : the parts of a row around the marker of its comment.
* `Text.maskMarkers`, `Text.unmaskMarkers` : masking and reading back.
* `Text.countP_maskMarkers`, `Text.countP_unmaskMarkers` : other characters are kept both ways.
-/

namespace Marginalia

/-- The character that starts a comment. -/
def marker : Char := '#'

/-- What stands for the marker in kept keys and values. -/
def markerMask : Text := ['\\', 'u', '0', '0', '2', '3']

namespace Text

-- ---------------------------------------------------------------------------
-- Finding the marker
-- ---------------------------------------------------------------------------

/-- The text before the first marker that starts a comment and the text after
it. A marker does so right after a space or a tab; `delimited` says whether one
would at the very start. -/
def splitAtMarkerFrom (delimited : Bool) : Text → Option (Text × Text)
  | [] => none
  | c :: rest =>
    if delimited && c == marker then some ([], rest)
    else (splitAtMarkerFrom (isIndent c) rest).map fun parts => (c :: parts.1, parts.2)

/-- The text of a row before the marker that starts its comment, and the text
after it. -/
def splitAtMarker (t : Text) : Option (Text × Text) :=
  splitAtMarkerFrom true t

theorem splitAtMarkerFrom_eq_some {delimited : Bool} {t before body : Text}
    (h : splitAtMarkerFrom delimited t = some (before, body)) : t = before ++ marker :: body := by
  induction t generalizing delimited before with
  | nil => simp [splitAtMarkerFrom] at h
  | cons c rest ih =>
    rw [splitAtMarkerFrom] at h
    split at h
    · next hc =>
      obtain ⟨rfl, rfl⟩ : [] = before ∧ rest = body := by simpa using h
      simp_all
    · obtain ⟨parts, hp, hparts⟩ := Option.map_eq_some_iff.mp h
      obtain ⟨rfl, rfl⟩ : c :: parts.1 = before ∧ parts.2 = body := by simpa using hparts
      rw [ih hp, List.cons_append]

/-- A row is the part before the marker, the marker, and the part after it. -/
theorem splitAtMarker_eq_some {t before body : Text}
    (h : splitAtMarker t = some (before, body)) : t = before ++ marker :: body :=
  splitAtMarkerFrom_eq_some h

-- ---------------------------------------------------------------------------
-- Masking
-- ---------------------------------------------------------------------------

/-- The text with every marker masked. -/
def maskMarkers : Text → Text
  | [] => []
  | c :: rest => if c = marker then markerMask ++ maskMarkers rest else c :: maskMarkers rest

/-- The text with every mask read as a marker. -/
def unmaskMarkers : Text → Text
  | '\\' :: 'u' :: '0' :: '0' :: '2' :: '3' :: rest => marker :: unmaskMarkers rest
  | c :: rest => c :: unmaskMarkers rest
  | [] => []

/-- Masking keeps the number of the characters of a class that the marker and its
mask have no part in. -/
theorem countP_maskMarkers {p : Char → Bool} (hMask : (marker :: markerMask).countP p = 0) (t : Text) :
    (maskMarkers t).countP p = t.countP p := by
  rw [List.countP_cons, Nat.add_eq_zero_iff] at hMask
  induction t with
  | nil => rfl
  | cons c rest ih =>
    rw [maskMarkers, List.countP_cons, ← ih]
    split
    · next hMarker => rw [hMarker, List.countP_append, hMask.1, hMask.2, Nat.add_comm]
    · rw [List.countP_cons]

/-- So does reading the masks. -/
theorem countP_unmaskMarkers {p : Char → Bool} (hMask : (marker :: markerMask).countP p = 0) (t : Text) :
    (unmaskMarkers t).countP p = t.countP p := by
  rw [List.countP_cons, Nat.add_eq_zero_iff] at hMask
  fun_induction unmaskMarkers t with
  | case1 rest ih =>
    show _ = (markerMask ++ rest).countP p
    rw [List.countP_append, hMask.1, List.countP_cons, hMask.2, ih, Nat.add_comm]
  | case2 c rest _ ih => rw [List.countP_cons, List.countP_cons, ih]
  | case3 => rfl

end Text

end Marginalia
