import Marginalia.Path.Basic

/-!
# The order of paths

Paths are ordered step by step from the root, and a path comes before those that
go on from it. Every key comes before every position; keys are ordered by the
code points of their characters, positions as numbers.

* `Path.sortDistinct` : the paths of a list in ascending order, each once.
-/

namespace Marginalia

namespace Step

def compare : Step → Step → Ordering
  | .key a, .key b => Ord.compare a b
  | .key _, .item _ => .lt
  | .item _, .key _ => .gt
  | .item a, .item b => Ord.compare a b

instance : Ord Step := ⟨compare⟩

end Step

namespace Path

def compare (p q : Path) : Ordering :=
  Ord.compare p.steps q.steps

instance : Ord Path := ⟨compare⟩

/-- Put a path in its place among ascending ones, unless it is there already. -/
def insertSorted (p : Path) : List Path → List Path
  | [] => [p]
  | q :: rest =>
    match p.compare q with
    | .lt => p :: q :: rest
    | .eq => q :: rest
    | .gt => q :: insertSorted p rest

/-- The paths of a list in ascending order, each once. -/
def sortDistinct (paths : List Path) : List Path :=
  paths.foldr insertSorted []

end Path

end Marginalia
