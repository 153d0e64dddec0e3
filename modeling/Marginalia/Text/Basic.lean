/-!
# Text

A text is the list of its characters, so that everything said about rows, keys
and comments is said by recursion on a list.

* `Text.strip`    : a text without the characters of a class at its two ends.
* `Text.splitOnPair` : the pieces between the occurrences of a pair of characters. The pieces between
  the occurrences of one character are `List.splitOn`, and `List.intercalate` puts pieces together.
-/

namespace Marginalia

/-- A text is the list of its characters. -/
abbrev Text := List Char

namespace Text

-- ---------------------------------------------------------------------------
-- Stripping
-- ---------------------------------------------------------------------------

/-- The text without the characters of class `p` at its start. -/
def stripStart (p : Char → Bool) (t : Text) : Text :=
  t.dropWhile p

/-- The text without the characters of class `p` at its end. -/
def stripEnd (p : Char → Bool) (t : Text) : Text :=
  (t.reverse.dropWhile p).reverse

/-- The text without the characters of class `p` at its two ends. -/
def strip (p : Char → Bool) (t : Text) : Text :=
  stripEnd p (stripStart p t)

theorem stripStart_eq_nil_iff (p : Char → Bool) (t : Text) : stripStart p t = [] ↔ ∀ c ∈ t, p c := by
  induction t with
  | nil => simp [stripStart]
  | cons c rest ih =>
    rw [stripStart, List.dropWhile_cons]
    split
    · next hc =>
      rw [← stripStart, ih]
      simp [hc]
    · next hc => simp [hc]

theorem stripEnd_eq_nil_iff (p : Char → Bool) (t : Text) : stripEnd p t = [] ↔ ∀ c ∈ t, p c := by
  rw [stripEnd, List.reverse_eq_nil_iff, ← stripStart, stripStart_eq_nil_iff]
  simp

theorem strip_eq_nil_iff (p : Char → Bool) (t : Text) : strip p t = [] ↔ ∀ c ∈ t, p c := by
  rw [strip, stripEnd_eq_nil_iff]
  constructor
  · intro h
    have hnil : stripStart p t = [] := by
      cases hs : stripStart p t with
      | nil => rfl
      | cons c rest =>
        have hhead := List.head?_dropWhile_not p t
        rw [show t.dropWhile p = c :: rest from hs] at hhead
        have hc := h c (by rw [hs]; exact List.mem_cons_self)
        simp [hc] at hhead
    exact (stripStart_eq_nil_iff p t).mp hnil
  · intro h c hc
    exact h c ((List.dropWhile_suffix p).subset hc)

theorem stripStart_of_head? {p : Char → Bool} {t : Text} (hHead : ∀ c ∈ t.head?, p c = false) :
    stripStart p t = t := by
  cases t with
  | nil => rfl
  | cons c rest => rw [stripStart, List.dropWhile_cons, hHead c rfl, if_neg Bool.false_ne_true]

/-- The part of a text that stripping its start takes away. -/
theorem takeWhile_append_stripStart (p : Char → Bool) (t : Text) :
    t.takeWhile p ++ stripStart p t = t :=
  List.takeWhile_append_dropWhile

/-- The part of a text that stripping its end takes away. -/
theorem stripEnd_append (p : Char → Bool) (t : Text) :
    stripEnd p t ++ (t.reverse.takeWhile p).reverse = t := by
  rw [stripEnd, ← List.reverse_append, List.takeWhile_append_dropWhile, List.reverse_reverse]

-- ---------------------------------------------------------------------------
-- Pieces
-- ---------------------------------------------------------------------------

/-- Put a character in front of the first of some pieces. -/
def consFirst (c : Char) : List Text → List Text
  | [] => [[c]]
  | piece :: pieces => (c :: piece) :: pieces

/-- The pieces of a text between the occurrences of `a` right before `b`, found
from the left. -/
def splitOnPair (a b : Char) : Text → List Text
  | [] => [[]]
  | [c] => [[c]]
  | c :: d :: rest =>
    if c = a ∧ d = b then [] :: splitOnPair a b rest else consFirst c (splitOnPair a b (d :: rest))

/-- No piece has the character that the text was split at. -/
theorem not_mem_of_mem_splitOn {sep : Char} {t piece : Text} (hPiece : piece ∈ t.splitOn sep) :
    sep ∉ piece := by
  induction t generalizing piece with
  | nil =>
    obtain rfl : piece = [] := by simpa using hPiece
    exact List.not_mem_nil
  | cons c rest ih =>
    rw [List.splitOn_cons_eq_if_modifyHead] at hPiece
    split at hPiece
    · rcases List.mem_cons.mp hPiece with rfl | hPiece
      · exact List.not_mem_nil
      · exact ih hPiece
    · next hc =>
      have hc : sep ≠ c := by
        rintro rfl
        exact hc BEq.rfl
      cases hRest : rest.splitOn sep with
      | nil => simp [hRest] at hPiece
      | cons first pieces =>
        rw [hRest] at hPiece ih
        rcases List.mem_cons.mp hPiece with rfl | hPiece
        · exact List.not_mem_cons_of_ne_of_not_mem hc (ih List.mem_cons_self)
        · exact ih (List.mem_cons_of_mem _ hPiece)

theorem consFirst_ne_nil (c : Char) (pieces : List Text) : consFirst c pieces ≠ [] := by
  cases pieces <;> simp [consFirst]

theorem splitOnPair_ne_nil (a b : Char) (t : Text) : splitOnPair a b t ≠ [] := by
  fun_cases splitOnPair a b t <;> simp [consFirst_ne_nil]

theorem intercalate_consFirst (sep : Text) (c : Char) {pieces : List Text} (h : pieces ≠ []) :
    sep.intercalate (consFirst c pieces) = c :: sep.intercalate pieces := by
  match pieces, h with
  | [_], _ => simp [consFirst]
  | _ :: _ :: _, _ => simp [consFirst, List.intercalate_cons_cons]

/-- The pieces, put together with the pair between them, are the text. -/
theorem intercalate_splitOnPair (a b : Char) (t : Text) :
    [a, b].intercalate (splitOnPair a b t) = t := by
  fun_induction splitOnPair a b t with
  | case1 => rfl
  | case2 => simp
  | case3 c d rest h ih =>
    rw [h.1, h.2]
    cases hs : splitOnPair a b rest with
    | nil => exact absurd hs (splitOnPair_ne_nil a b rest)
    | cons piece pieces => rw [List.intercalate_cons_cons, ← hs, ih]; rfl
  | case4 c d rest _ ih =>
    rw [intercalate_consFirst _ _ (splitOnPair_ne_nil a b (d :: rest)), ih]

end Text

end Marginalia
