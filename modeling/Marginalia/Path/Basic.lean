import Marginalia.Text.Basic

/-!
# Paths

A path names a place in a document by the steps that lead to it from the root:
the key of a mapping entry, or the position of an item in its sequence.

* `Path.child`, `Path.parent?`, `Path.last?` : one step further, one step back, the last step.
-/

namespace Marginalia

/-- One step of a path. -/
inductive Step
  /-- To the entry of a mapping with this key. -/
  | key (name : Text)
  /-- To the item of a sequence at this position, counted from zero. -/
  | item (position : Nat)
  deriving DecidableEq, Repr

/-- The steps from the root of a document to a place in it. -/
structure Path where
  steps : List Step
  deriving DecidableEq, Repr

namespace Path

/-- The place that all paths start from. -/
def root : Path := ⟨[]⟩

/-- The path with one more step at its end. -/
def child (p : Path) (s : Step) : Path :=
  ⟨p.steps ++ [s]⟩

/-- The path without its last step; the root has no parent. -/
def parent? (p : Path) : Option Path :=
  if p.steps.isEmpty then none else some ⟨p.steps.dropLast⟩

def last? (p : Path) : Option Step :=
  p.steps.getLast?

def length (p : Path) : Nat :=
  p.steps.length

def isRoot (p : Path) : Bool :=
  p.steps.isEmpty

theorem steps_child (p : Path) (s : Step) : (p.child s).steps = p.steps ++ [s] := rfl

theorem child_ne_root (p : Path) (s : Step) : p.child s ≠ root := by
  simp [child, root]

theorem child_inj {p q : Path} {s t : Step} : p.child s = q.child t ↔ p = q ∧ s = t := by
  cases p
  cases q
  simp [child]

end Path

end Marginalia
