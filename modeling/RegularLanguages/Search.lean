import Std.Data.HashSet

/-!
# Breadth first search

One search serves every construction that follows moves from vertex to vertex: closures and
reachability in an automaton, the subset construction, products and the numbering of states.
A vertex is expanded once, in the order of its discovery, and the search returns the vertices
in this order, each with its moves.

`fuel` bounds the number of expansions. As no vertex is expanded twice, the number of vertices
that can be reached is enough.
-/

namespace RegularLanguages.Search

variable {σ ℓ : Type} [BEq σ] [Hashable σ]

/-- The entries of a list that have not been seen, each once and in order, and what has been
seen after them. -/
def discover : List σ → Std.HashSet σ → List σ × Std.HashSet σ
  | [], seen => ([], seen)
  | x :: xs, seen =>
    if x ∈ seen then discover xs seen
    else
      let (found, seen) := discover xs (seen.insert x)
      (x :: found, seen)

/-- Expands the vertices of the queue, the earliest first. -/
def expand (moves : σ → List (ℓ × σ)) : Nat → Std.HashSet σ → List σ → List (σ × List (ℓ × σ))
  | 0, _, _ => []
  | _ + 1, _, [] => []
  | fuel + 1, seen, x :: queue =>
    let steps := moves x
    let (found, seen) := discover (steps.map (·.2)) seen
    (x, steps) :: expand moves fuel seen (queue ++ found)

/-- The vertices that can be reached from `roots`, each with its moves, in the order of their
discovery. -/
def explore (moves : σ → List (ℓ × σ)) (fuel : Nat) (roots : List σ) :
    List (σ × List (ℓ × σ)) :=
  let (found, seen) := discover roots ∅
  expand moves fuel seen found

/-- The vertices that can be reached from `roots`, in the order of their discovery. -/
def reachable (moves : σ → List (ℓ × σ)) (fuel : Nat) (roots : List σ) : List σ :=
  (explore moves fuel roots).map (·.1)

end RegularLanguages.Search
