import Marginalia.Path.Format
import Mathlib.Data.List.Basic
import Mathlib.Data.List.Induction

/-!
# Paths as they are written

A path is written with a dot between its steps, and a text is read part by part
between its dots. Two kinds of texts come back other than they were, and each has
one reason:

* A key is written as it stands. With a dot in it, it is read as more steps than
  one, and if it is a number below the limit, it is read as a position. A lone
  empty key is written like the root.
* A position is written without zeros in front. A part that has some is read as a
  position, and is written without them afterwards.

What is read never has such a key, so a path that was read once is read back as
it was written.

## Results

* `decimal_ofDigitChars_eq_iff`      — digits are what their number is written as unless a zero pads them.
* `Path.readable_ofText`             — a path that was read is told by its text,
* `Path.Readable.ofText_toText`      — and such a path is read back as it was.
* `Path.ofText_toText_eq_self_iff`   — exactly which paths are read back as they were.
* `Path.toText_ofText_eq_self_iff`   — exactly which texts are written back as they were.
-/

namespace Marginalia

-- ---------------------------------------------------------------------------
-- Digits
-- ---------------------------------------------------------------------------

theorem ofDigitChars_concat (t : Text) (c : Char) :
    Nat.ofDigitChars 10 (t ++ [c]) 0 = 10 * Nat.ofDigitChars 10 t 0 + (c.toNat - 48) := by
  rw [Nat.ofDigitChars_eq_foldl, List.foldl_append, ← Nat.ofDigitChars_eq_foldl]
  rfl

/-- A digit is the character of the number that it stands for. -/
theorem digitChar_of_isDigit {c : Char} (hc : c.isDigit) :
    c.toNat - 48 < 10 ∧ Nat.digitChar (c.toNat - 48) = c := by
  obtain ⟨hLow, hHigh⟩ : 48 ≤ c.toNat ∧ c.toNat ≤ 57 := Char.isDigit_iff_toNat.mp hc
  have hLt : c.toNat - 48 < 10 := by omega
  refine ⟨hLt, Char.toNat_inj.mp ?_⟩
  rw [Nat.toNat_digitChar_of_lt_ten hLt]
  omega

/-- No number but zero is written with a zero first. -/
theorem eq_zero_of_head?_decimal {n : Nat} (hHead : (decimal n).head? = some '0') : n = 0 := by
  induction n using Nat.strongRecOn with
  | ind n ih =>
    by_cases hLt : n < 10
    · rw [decimal, Nat.toDigits_of_lt_base hLt] at hHead
      exact Nat.digitChar_eq_zero.mp (Option.some.inj hHead)
    · have hSplit : decimal n = decimal (n / 10) ++ [(n % 10).digitChar] :=
        Nat.toDigits_of_base_le (by decide) (Nat.le_of_not_lt hLt)
      rw [hSplit, List.head?_append_of_ne_nil _ (decimal_ne_nil _)] at hHead
      have hFront := ih (n / 10) (by omega) hHead
      omega

/-- Digits without a zero in front are what their number is written as. By
induction from the last digit: what stands before it is no zero, so it stays a
number of its own. -/
theorem decimal_ofDigitChars {t : Text} (hNe : t ≠ []) (hDigits : ∀ c ∈ t, c.isDigit)
    (hFirst : t.head? = some '0' → t.length = 1) : decimal (Nat.ofDigitChars 10 t 0) = t := by
  induction t using List.reverseRecOn with
  | nil => exact absurd rfl hNe
  | append_singleton front c ih =>
    obtain ⟨hLt, hChar⟩ := digitChar_of_isDigit (hDigits c (by simp))
    rw [ofDigitChars_concat]
    by_cases hFront : front = []
    · rw [hFront]
      exact (Nat.toDigits_of_lt_base (by simpa using hLt)).trans (by simpa using hChar)
    · rw [List.head?_append_of_ne_nil _ hFront] at hFirst
      have hNotZero : front.head? ≠ some '0' := fun hHead => hFront (by simpa using hFirst hHead)
      have hDecimal := ih hFront (fun d hd => hDigits d (by simp [hd])) fun hHead => absurd hHead hNotZero
      have hPos : 0 < Nat.ofDigitChars 10 front 0 := by
        refine Nat.pos_of_ne_zero fun hZero => hNotZero ?_
        rw [← hDecimal, hZero]
        rfl
      rw [decimal, ← Nat.toDigits_append_toDigits (by decide) hPos hLt, ← decimal, hDecimal,
        Nat.toDigits_of_lt_base hLt, hChar]

/-- **Digits are what their number is written as** unless a zero stands in front of
others. -/
theorem decimal_ofDigitChars_eq_iff {t : Text} (hNe : t ≠ []) (hDigits : ∀ c ∈ t, c.isDigit) :
    decimal (Nat.ofDigitChars 10 t 0) = t ↔ ¬ (2 ≤ t.length ∧ t.head? = some '0') := by
  have hPos := List.length_pos_of_ne_nil hNe
  constructor
  · rintro hDecimal ⟨hTwo, hHead⟩
    have hZero : Nat.ofDigitChars 10 t 0 = 0 := eq_zero_of_head?_decimal (by rw [hDecimal, hHead])
    rw [hZero] at hDecimal
    rw [← hDecimal] at hTwo
    exact absurd hTwo (by decide)
  · intro hNot
    refine decimal_ofDigitChars hNe hDigits fun hHead => ?_
    have hLt : ¬ 2 ≤ t.length := fun hTwo => hNot ⟨hTwo, hHead⟩
    omega

-- ---------------------------------------------------------------------------
-- Parts
-- ---------------------------------------------------------------------------

namespace Text

/-- A text that is read as a position: digits, at least one, of a number below the
limit. -/
structure IsPosition (t : Text) : Prop where
  ne_nil : t ≠ []
  digits : ∀ c ∈ t, c.isDigit
  lt_limit : Nat.ofDigitChars 10 t 0 < sizeLimit

instance (t : Text) : Decidable t.IsPosition :=
  decidable_of_iff (t ≠ [] ∧ t.all Char.isDigit ∧ Nat.ofDigitChars 10 t 0 < sizeLimit)
    ⟨fun h => ⟨h.1, List.all_eq_true.mp h.2.1, h.2.2⟩,
      fun h => ⟨h.ne_nil, List.all_eq_true.mpr h.digits, h.lt_limit⟩⟩

/-- A position that is written with a zero in front of other digits. -/
structure IsPadded (t : Text) : Prop extends t.IsPosition where
  two_le : 2 ≤ t.length
  leading : t.head? = some '0'

end Text

theorem readDecimal?_eq_some_iff {t : Text} {n : Nat} :
    readDecimal? t = some n ↔ t.IsPosition ∧ Nat.ofDigitChars 10 t 0 = n := by
  simp only [readDecimal?, List.all_eq_true]
  constructor
  · intro hRead
    split at hRead
    · next hAll => exact ⟨⟨hAll.1, hAll.2.1, hAll.2.2⟩, Option.some.inj hRead⟩
    · cases hRead
  · rintro ⟨hPosition, rfl⟩
    exact if_pos ⟨hPosition.ne_nil, hPosition.digits, hPosition.lt_limit⟩

theorem readDecimal?_eq_none_iff {t : Text} : readDecimal? t = none ↔ ¬ t.IsPosition := by
  rw [Option.eq_none_iff_forall_ne_some]
  simp [readDecimal?_eq_some_iff]

namespace Step

theorem ofText_eq_key_iff {part name : Text} :
    ofText part = .key name ↔ part = name ∧ ¬ name.IsPosition := by
  rw [← readDecimal?_eq_none_iff, ofText]
  constructor
  · intro hStep
    split at hStep
    · cases hStep
    · next hNone =>
      obtain rfl := Step.key.inj hStep
      exact ⟨rfl, hNone⟩
  · rintro ⟨rfl, hNone⟩
    rw [hNone]

theorem ofText_eq_item_iff {part : Text} {n : Nat} : ofText part = .item n ↔ readDecimal? part = some n := by
  rw [ofText]
  split <;> simp_all

theorem stepDot_not_mem_toText_item (n : Nat) : stepDot ∉ toText (.item n) :=
  fun hMem => absurd (isDigit_of_mem_decimal hMem) (by decide)

theorem stepDot_not_mem_toText_ofText {part : Text} (hDot : stepDot ∉ part) :
    stepDot ∉ (ofText part).toText := by
  cases hStep : ofText part with
  | key name =>
    obtain ⟨rfl, -⟩ := ofText_eq_key_iff.mp hStep
    exact hDot
  | item n => exact stepDot_not_mem_toText_item n

/-- **A part is written back as it was** unless it is a padded position. -/
theorem toText_ofText_eq_iff (part : Text) : (ofText part).toText = part ↔ ¬ part.IsPadded := by
  cases hStep : ofText part with
  | key name =>
    obtain ⟨rfl, hNot⟩ := ofText_eq_key_iff.mp hStep
    exact iff_of_true rfl fun hPadded => hNot hPadded.toIsPosition
  | item n =>
    obtain ⟨hPosition, rfl⟩ := readDecimal?_eq_some_iff.mp (ofText_eq_item_iff.mp hStep)
    rw [toText, decimal_ofDigitChars_eq_iff hPosition.ne_nil hPosition.digits]
    exact not_congr ⟨fun h => ⟨hPosition, h.1, h.2⟩, fun h => ⟨h.two_le, h.leading⟩⟩

end Step

-- ---------------------------------------------------------------------------
-- Paths
-- ---------------------------------------------------------------------------

namespace Path

/-- A path that its text tells: no lone empty key, no key with a dot in it or that
looks like a position, and no position that is too large to be read. -/
structure Readable (p : Path) : Prop where
  not_lone : p.steps ≠ [.key []]
  key : ∀ name, .key name ∈ p.steps → stepDot ∉ name ∧ ¬ name.IsPosition
  item : ∀ n, .item n ∈ p.steps → n < sizeLimit

/-- A step of a path that was read stands between two dots of the text. -/
theorem exists_part_of_mem_ofText {t : Text} {s : Step} (hStep : s ∈ (ofText t).steps) :
    ∃ part ∈ t.splitOn stepDot, Step.ofText part = s := by
  rw [ofText] at hStep
  split at hStep
  · cases hStep
  · exact List.mem_map.mp hStep

/-- **A path that was read is told by its text.** -/
theorem readable_ofText (t : Text) : (ofText t).Readable where
  not_lone := by
    intro hLone
    rw [ofText] at hLone
    split at hLone
    · cases hLone
    · next hNe =>
      obtain ⟨part, hParts, hPart⟩ := List.map_eq_singleton_iff.mp hLone
      obtain ⟨rfl, -⟩ := Step.ofText_eq_key_iff.mp hPart
      have hText : [stepDot].intercalate (t.splitOn stepDot) = t := List.intercalate_splitOn stepDot
      rw [hParts] at hText
      exact hNe (List.isEmpty_iff.mpr hText.symm)
  key := by
    intro name hKey
    obtain ⟨part, hPart, hStep⟩ := exists_part_of_mem_ofText hKey
    obtain ⟨rfl, hNot⟩ := Step.ofText_eq_key_iff.mp hStep
    exact ⟨Text.not_mem_of_mem_splitOn hPart, hNot⟩
  item := by
    intro n hItem
    obtain ⟨part, -, hStep⟩ := exists_part_of_mem_ofText hItem
    exact readDecimal?_lt (Step.ofText_eq_item_iff.mp hStep)

/-- The parts of a path's text are its steps, if no step has a dot in it. -/
theorem splitOn_intercalate_toText {steps : List Step} (hNe : steps ≠ [])
    (hDots : ∀ s ∈ steps, stepDot ∉ s.toText) :
    ([stepDot].intercalate (steps.map Step.toText)).splitOn stepDot = steps.map Step.toText := by
  refine List.splitOn_intercalate stepDot ?_ (by simpa using hNe)
  intro part hPart
  obtain ⟨s, hs, rfl⟩ := List.mem_map.mp hPart
  exact hDots s hs

theorem Readable.stepDot_not_mem {p : Path} (hp : p.Readable) {s : Step} (hs : s ∈ p.steps) :
    stepDot ∉ s.toText := by
  cases s with
  | key name => exact (hp.key name hs).1
  | item n => exact Step.stepDot_not_mem_toText_item n

theorem Readable.ofText_toText_step {p : Path} (hp : p.Readable) {s : Step} (hs : s ∈ p.steps) :
    Step.ofText s.toText = s := by
  cases s with
  | key name => exact Step.ofText_eq_key_iff.mpr ⟨rfl, (hp.key name hs).2⟩
  | item n => exact Step.ofText_toText_item (hp.item n hs)

/-- **A path that its text tells is read back as it was.** -/
theorem Readable.ofText_toText {p : Path} (hp : p.Readable) : ofText p.toText = p := by
  by_cases hNil : p.steps = []
  · obtain ⟨steps⟩ := p
    obtain rfl : steps = [] := hNil
    rfl
  · have hParts := splitOn_intercalate_toText hNil fun s hs => hp.stepDot_not_mem hs
    -- only a lone empty key has an empty text
    have hNe : ¬ p.toText.isEmpty := by
      intro hEmpty
      rw [← toText, List.isEmpty_iff.mp hEmpty, List.splitOn_nil] at hParts
      obtain ⟨s, hSteps, hs⟩ := List.map_eq_singleton_iff.mp hParts.symm
      cases s with
      | key name =>
        obtain rfl : name = [] := hs
        exact hp.not_lone hSteps
      | item n => exact decimal_ne_nil n hs
    have hSteps : (p.steps.map Step.toText).map Step.ofText = p.steps := by
      rw [List.map_map]
      exact (List.map_congr_left fun s hs => hp.ofText_toText_step hs).trans (List.map_id _)
    rw [ofText, if_neg hNe, toText, hParts, hSteps]

/-- **Which paths are read back as they were written**, if their positions can be
read at all: all but a lone empty key and those that have a key with a dot in it or
one that is read as a position. -/
theorem ofText_toText_eq_self_iff (p : Path) (hSize : ∀ n, Step.item n ∈ p.steps → n < sizeLimit) :
    ofText p.toText = p ↔
      p ≠ ⟨[.key []]⟩ ∧ ∀ name, Step.key name ∈ p.steps → stepDot ∉ name ∧ ¬ name.IsPosition := by
  have hLone : p ≠ ⟨[.key []]⟩ ↔ p.steps ≠ [.key []] := by
    cases p
    simp
  rw [hLone]
  constructor
  · intro hSame
    have hRead := readable_ofText p.toText
    rw [hSame] at hRead
    exact ⟨hRead.not_lone, hRead.key⟩
  · rintro ⟨hNotLone, hKey⟩
    exact Readable.ofText_toText ⟨hNotLone, hKey, hSize⟩

/-- A path with an empty key, a signed number, a number beyond the limit and a
position is read back; a path with a number for a key is not. -/
theorem ofText_toText_eq_self_iff_signed :
    ofText (toText ⟨[.key [], .key "+1".toList, .key "18446744073709551616".toList, .item 7]⟩)
        = ⟨[.key [], .key "+1".toList, .key "18446744073709551616".toList, .item 7]⟩ ∧
      ofText (toText ⟨[.key "a".toList, .key "007".toList]⟩) ≠ ⟨[.key "a".toList, .key "007".toList]⟩ := by
  constructor
  · refine (ofText_toText_eq_self_iff _ ?_).mpr ⟨by decide, ?_⟩
    · simp [sizeLimit]
    · intro name hKey
      simp only [List.mem_cons, Step.key.injEq, List.not_mem_nil, or_false, reduceCtorEq] at hKey
      rcases hKey with rfl | rfl | rfl <;> decide
  · intro hSame
    have hKeys := ((ofText_toText_eq_self_iff ⟨[.key "a".toList, .key "007".toList]⟩ (by simp)).mp hSame).2
    exact (hKeys "007".toList (by simp)).2 (by decide)

/-- A text that was read is written step by step, also the empty one. -/
theorem toText_ofText_eq_intercalate (t : Text) :
    (ofText t).toText = [stepDot].intercalate (((t.splitOn stepDot).map Step.ofText).map Step.toText) := by
  rw [ofText]
  split
  · next hEmpty =>
    rw [List.isEmpty_iff.mp hEmpty, List.splitOn_nil]
    rfl
  · rfl

/-- A text is written back as it was if its parts are. -/
theorem toText_ofText_eq_iff_forall_part (t : Text) :
    (ofText t).toText = t ↔ ∀ part ∈ t.splitOn stepDot, (Step.ofText part).toText = part := by
  have hParts : ((t.splitOn stepDot).map Step.ofText).map Step.toText = t.splitOn stepDot ↔
      ∀ part ∈ t.splitOn stepDot, (Step.ofText part).toText = part := by
    conv => lhs; rw [List.map_map]; rhs; rw [← List.map_id (t.splitOn stepDot)]
    exact List.map_inj_left
  rw [← hParts, toText_ofText_eq_intercalate]
  constructor
  · intro hSame
    rw [← splitOn_intercalate_toText (by simp) ?_, hSame]
    intro s hs
    obtain ⟨part, hPart, rfl⟩ := List.mem_map.mp hs
    exact Step.stepDot_not_mem_toText_ofText (Text.not_mem_of_mem_splitOn hPart)
  · intro hSame
    rw [hSame, List.intercalate_splitOn]

/-- **Reading and writing changes a text once at most**: the path that was read is
read back, and the text is written back as it was unless one of its parts is a
padded position. -/
theorem toText_ofText_eq_self_iff (t : Text) :
    ofText (ofText t).toText = ofText t ∧
      ((ofText t).toText = t ↔ ∀ part ∈ t.splitOn stepDot, ¬ Text.IsPadded part) := by
  refine ⟨(readable_ofText t).ofText_toText, ?_⟩
  rw [toText_ofText_eq_iff_forall_part]
  simp only [Step.toText_ofText_eq_iff]

example : (ofText ".007.+7".toList).toText = ".7.+7".toList := by decide

end Path

end Marginalia
