import Marginalia.Text.Marker

/-!
# What data says

The data of a row is an item of a sequence, an entry of a mapping, or neither.

* An item starts, after its indentation, with a dash at the end of the data or before a space or a tab.
* A pair has a colon at the end of the data or before a space. Its key is all that stands before the *first*
  colon, its value all that stands after it.
* Any other data is plain: a document start, a continued value, a flow collection.

The value of an item is kept without the blanks around it, the key and the value
of a pair without the spaces and tabs around them.

* `Entry.ofData` : what data says.
* `Entry.key`, `Entry.value` : the parts of it as they are read.
-/

namespace Marginalia

/-- What data says, with every marker in its parts masked. -/
inductive Entry
  | item (value : Text)
  | pair (key value : Text)
  | plain
  deriving DecidableEq, Repr

namespace Entry

/-- What stands for the key of an item. -/
def itemKey : Text := ['[', 'n', ']']

/-- The text after the dash of an item that starts here. -/
def afterDash? : Text → Option Text
  | [] => none
  | c :: rest => if c = '-' ∧ rest.head?.all isIndent then some rest else none

/-- Whether some colon of a text stands at its end or before a space. -/
def hasKeyColon : Text → Bool
  | [] => false
  | c :: rest => (c == ':' && rest.head?.all (· == ' ')) || hasKeyColon rest

/-- The text before the first colon and the text after it. -/
def splitAtColon (data : Text) : Text × Text :=
  (data.takeWhile (· != ':'), (data.dropWhile (· != ':')).drop 1)

def ofData (data : Text) : Entry :=
  match afterDash? (Text.stripStart isIndent data) with
  | some content => .item (Text.maskMarkers content.trim)
  | none =>
    if hasKeyColon data then
      let parts := splitAtColon data
      .pair (Text.maskMarkers (Text.trimIndent parts.1)) (Text.maskMarkers (Text.trimIndent parts.2))
    else .plain

def isItem : Entry → Bool
  | item _ => true
  | pair _ _ => false
  | plain => false

/-- The key as it is read: that of plain data is empty. -/
def key : Entry → Text
  | item _ => itemKey
  | pair name _ => name.unmaskMarkers
  | plain => []

/-- The value as it is read: that of plain data is empty. -/
def value : Entry → Text
  | item content => content.unmaskMarkers
  | pair _ content => content.unmaskMarkers
  | plain => []

theorem isItem_iff (e : Entry) : e.isItem ↔ ∃ content, e = .item content := by
  cases e <;> simp [isItem]

theorem key_of_isItem {e : Entry} (hItem : e.isItem = true) : e.key = itemKey := by
  obtain ⟨content, rfl⟩ := (isItem_iff e).mp hItem
  rfl

/-- A text with a colon is what stands before the first one, the colon, and what
stands after it. -/
theorem splitAtColon_of_mem {data : Text} (h : ':' ∈ data) :
    data = (splitAtColon data).1 ++ ':' :: (splitAtColon data).2 ∧ ':' ∉ (splitAtColon data).1 := by
  induction data with
  | nil => simp at h
  | cons c rest ih =>
    by_cases hc : c = ':'
    · simp [splitAtColon, hc]
    · have hrest := ih ((List.mem_cons.mp h).resolve_left (Ne.symm hc))
      simpa [splitAtColon, hc, Ne.symm hc] using hrest

/-- Data with a key colon has a colon to be split at. -/
theorem mem_of_hasKeyColon {data : Text} (h : hasKeyColon data) : ':' ∈ data := by
  induction data with
  | nil => simp [hasKeyColon] at h
  | cons c rest ih =>
    simp only [hasKeyColon, Bool.or_eq_true, Bool.and_eq_true, beq_iff_eq] at h
    rcases h with ⟨rfl, _⟩ | h
    · exact List.mem_cons_self
    · exact List.mem_cons_of_mem c (ih h)

end Entry

end Marginalia
