import Marginalia.Row.Comment

/-!
# Collections of comments

The comments taken from a document are kept under the numbers of their lines, in
ascending order. They may be edited before they are put into another document: a
comment taken out, put in, or moved to another number.

* `Collection.put`, `Collection.remove`, `Collection.move` : editing.
* `Collection.get?_put`, `Collection.get?_remove`          : what is found after editing.
-/

namespace Marginalia

/-- Comments under numbers, in ascending order of the numbers. -/
structure Collection where
  entries : List (Nat × Comment)
  ascending : entries.Pairwise fun a b => a.1 < b.1

namespace Collection

-- ---------------------------------------------------------------------------
-- Entries in order
-- ---------------------------------------------------------------------------

/-- Put an entry in its place, instead of one with the same number. -/
def putEntry (entry : Nat × Comment) : List (Nat × Comment) → List (Nat × Comment)
  | [] => [entry]
  | other :: rest =>
    if entry.1 < other.1 then entry :: other :: rest
    else if entry.1 = other.1 then entry :: rest
    else other :: putEntry entry rest

theorem eq_or_mem_of_mem_putEntry {entry x : Nat × Comment} {entries : List (Nat × Comment)}
    (h : x ∈ putEntry entry entries) : x = entry ∨ x ∈ entries := by
  induction entries with
  | nil => simpa [putEntry] using h
  | cons other rest ih =>
    rw [putEntry] at h
    split at h
    · simpa using h
    · split at h
      · rcases List.mem_cons.mp h with rfl | h
        · exact .inl rfl
        · exact .inr (List.mem_cons_of_mem _ h)
      · rcases List.mem_cons.mp h with rfl | h
        · exact .inr List.mem_cons_self
        · exact (ih h).imp_right (List.mem_cons_of_mem _)

theorem ascending_putEntry (entry : Nat × Comment) {entries : List (Nat × Comment)}
    (h : entries.Pairwise fun a b => a.1 < b.1) :
    (putEntry entry entries).Pairwise fun a b => a.1 < b.1 := by
  induction entries with
  | nil => simp [putEntry]
  | cons other rest ih =>
    obtain ⟨hother, hrest⟩ := List.pairwise_cons.mp h
    rw [putEntry]
    split
    · next hlt =>
      refine List.pairwise_cons.mpr ⟨fun x hx => ?_, h⟩
      rcases List.mem_cons.mp hx with rfl | hx
      · exact hlt
      · exact Nat.lt_trans hlt (hother x hx)
    · split
      · next heq => exact List.pairwise_cons.mpr ⟨fun x hx => heq ▸ hother x hx, hrest⟩
      · refine List.pairwise_cons.mpr ⟨fun x hx => ?_, ih hrest⟩
        rcases eq_or_mem_of_mem_putEntry hx with rfl | hx
        · omega
        · exact hother x hx

-- ---------------------------------------------------------------------------
-- Operations
-- ---------------------------------------------------------------------------

def empty : Collection := ⟨[], .nil⟩

/-- The numbers that comments are kept under, in ascending order. -/
def numbers (comments : Collection) : List Nat :=
  comments.entries.map (·.1)

def size (comments : Collection) : Nat :=
  comments.entries.length

def get? (comments : Collection) (number : Nat) : Option Comment :=
  (comments.entries.find? (·.1 == number)).map (·.2)

/-- Put a comment under a number, instead of the one that is there. -/
def put (comments : Collection) (number : Nat) (comment : Comment) : Collection :=
  ⟨putEntry (number, comment) comments.entries, ascending_putEntry _ comments.ascending⟩

def remove (comments : Collection) (number : Nat) : Collection :=
  ⟨comments.entries.filter (·.1 != number), comments.ascending.filter _⟩

/-- Move the comment under a number to another number, instead of the one that
is there. -/
def move (comments : Collection) (old new : Nat) : Collection :=
  match comments.get? old with
  | none => comments
  | some comment => (comments.remove old).put new comment

/-- The inline comments, in ascending order. -/
def inlineEntries (comments : Collection) : List (Nat × Comment) :=
  comments.entries.filter (·.2.isInline)

/-- The comments that have a row to themselves, in ascending order. -/
def rowEntries (comments : Collection) : List (Nat × Comment) :=
  comments.entries.filter (!·.2.isInline)

-- ---------------------------------------------------------------------------
-- What is found
-- ---------------------------------------------------------------------------

theorem get?_put (comments : Collection) (number : Nat) (comment : Comment) (n : Nat) :
    (comments.put number comment).get? n = if n = number then some comment else comments.get? n := by
  obtain ⟨entries, h⟩ := comments
  simp only [get?, put]
  induction entries with
  | nil =>
    by_cases hn : n = number
    · simp [putEntry, hn]
    · simp [putEntry, hn, Ne.symm hn]
  | cons other rest ih =>
    have ih := ih (List.pairwise_cons.mp h).2
    rw [putEntry]
    by_cases hlt : number < other.1
    · rw [if_pos hlt]
      by_cases hn : n = number
      · simp [hn]
      · simp [hn, Ne.symm hn]
    · rw [if_neg hlt]
      by_cases heq : number = other.1
      · rw [if_pos heq]
        by_cases hn : n = number
        · simp [hn]
        · simp [hn, Ne.symm hn, ← heq]
      · rw [if_neg heq]
        by_cases hn : n = other.1
        · simp [hn, Ne.symm heq]
        · rw [List.find?_cons_of_neg (by simpa using Ne.symm hn), ih,
            List.find?_cons_of_neg (by simpa using Ne.symm hn)]

theorem get?_remove (comments : Collection) (number n : Nat) :
    (comments.remove number).get? n = if n = number then none else comments.get? n := by
  simp only [get?, remove]
  induction comments.entries with
  | nil => simp
  | cons other rest ih =>
    by_cases hother : other.1 = number
    · by_cases hn : n = number
      · simp [hn]
      · simpa [hother, hn, Ne.symm hn] using ih
    · by_cases hn : other.1 = n
      · simp [hn, hn ▸ hother]
      · simpa [hother, hn] using ih

end Collection

end Marginalia
