import Marginalia.Text.Basic

/-!
# White space

Two classes of characters matter. A *blank* has the Unicode property
`White_Space`: a row of blanks is a blank row, and the text of a comment is read
without the blanks around it. An *indent* is a space or a tab: only these indent
a row, delimit a comment marker and surround a key or a value.

* `isBlank`, `isIndent`  : the two classes.
* `isBlank_of_isIndent` : every indent is blank.
-/

namespace Marginalia

/-- The ranges of the Unicode property `White_Space`, in ascending order. -/
def blankRanges : List (Nat × Nat) :=
  [(0x0009, 0x000D), (0x0020, 0x0020), (0x0085, 0x0085), (0x00A0, 0x00A0), (0x1680, 0x1680),
    (0x2000, 0x200A), (0x2028, 0x2029), (0x202F, 0x202F), (0x205F, 0x205F), (0x3000, 0x3000)]

/-- A blank is a character with the Unicode property `White_Space`. -/
def isBlank (c : Char) : Bool :=
  blankRanges.any fun range => range.1 ≤ c.toNat && c.toNat ≤ range.2

/-- An indent is a space or a tab. -/
def isIndent (c : Char) : Bool :=
  c == ' ' || c == '\t'

theorem isIndent_iff (c : Char) : isIndent c ↔ c = ' ' ∨ c = '\t' := by
  simp [isIndent]

theorem isBlank_of_isIndent {c : Char} (h : isIndent c) : isBlank c := by
  rcases (isIndent_iff c).mp h with rfl | rfl <;> decide

theorem isIndent_eq_false_of_isBlank {c : Char} (h : isBlank c = false) : isIndent c = false :=
  Bool.eq_false_iff.mpr fun hc => Bool.eq_false_iff.mp h (isBlank_of_isIndent hc)

namespace Text

/-- The text without the blanks at its two ends. -/
def trim (t : Text) : Text :=
  strip isBlank t

/-- The text without the spaces and tabs at its two ends. -/
def trimIndent (t : Text) : Text :=
  strip isIndent t

/-- A text is blank when all its characters are. -/
def allBlank (t : Text) : Bool :=
  t.all isBlank

/-- A text is blank exactly when trimming leaves nothing of it. -/
theorem allBlank_iff_trim (t : Text) : allBlank t ↔ trim t = [] := by
  rw [allBlank, List.all_eq_true, trim, strip_eq_nil_iff]

end Text

end Marginalia
