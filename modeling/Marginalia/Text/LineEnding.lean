import Marginalia.Text.Basic

/-!
# Line endings

A text is made of rows with a line ending between them. The ending is CR LF when
the text has line feeds and each of them follows a carriage return, and LF
otherwise. In a mixed text the carriage returns before line feeds therefore
belong to the rows.

* `LineEnding.ofText`     : the ending of a text.
* `LineEnding.split`      : the rows of a text.
* `LineEnding.join_split` : the rows with their ending between them are the text.
* `LineEnding.dropFinal?_eq_some_iff` : the ending at the very end of a text.
-/

namespace Marginalia

inductive LineEnding
  | lf
  | crLf
  deriving DecidableEq, Repr

namespace LineEnding

def chars : LineEnding → Text
  | lf => ['\n']
  | crLf => ['\r', '\n']

/-- Whether each line feed of a text follows a carriage return; `afterReturn`
says whether one stands right before the text. -/
def everyFeedFollowsReturn (afterReturn : Bool) : Text → Bool
  | [] => true
  | c :: rest => (c != '\n' || afterReturn) && everyFeedFollowsReturn (c == '\r') rest

def ofText (text : Text) : LineEnding :=
  if text.contains '\n' && everyFeedFollowsReturn false text then crLf else lf

/-- The pieces of a text between its line endings. -/
def split : LineEnding → Text → List Text
  | lf, text => text.splitOn '\n'
  | crLf, text => Text.splitOnPair '\r' '\n' text

/-- Rows with the line ending between them. -/
def join (ending : LineEnding) (rows : List Text) : Text :=
  ending.chars.intercalate rows

/-- The text without the line ending at its very end, if it has one there. -/
def dropFinal? (ending : LineEnding) (text : Text) : Option Text :=
  if ending.chars <:+ text then some (text.take (text.length - ending.chars.length)) else none

theorem chars_ne_nil (ending : LineEnding) : ending.chars ≠ [] := by
  cases ending <;> simp [chars]

theorem join_split (ending : LineEnding) (text : Text) : ending.join (ending.split text) = text := by
  cases ending with
  | lf => exact List.intercalate_splitOn '\n'
  | crLf => exact Text.intercalate_splitOnPair '\r' '\n' text

theorem dropFinal?_eq_some_iff {ending : LineEnding} {text body : Text} :
    ending.dropFinal? text = some body ↔ text = body ++ ending.chars := by
  rw [dropFinal?]
  constructor
  · intro h
    split at h
    · next hsuffix =>
      obtain ⟨front, rfl⟩ := hsuffix
      obtain rfl : front = body := by simpa using h
      rfl
    · cases h
  · rintro rfl
    rw [if_pos (List.suffix_append body ending.chars)]
    simp

theorem dropFinal?_eq_none_iff {ending : LineEnding} {text : Text} :
    ending.dropFinal? text = none ↔ ¬ ending.chars <:+ text := by
  rw [dropFinal?]
  split <;> simp_all

end LineEnding

end Marginalia
