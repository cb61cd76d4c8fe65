import RegularLanguages.Automaton.Basic
import RegularLanguages.FreshNames
import RegularLanguages.Search

/-!
# Automata of reachable vertices

The subset construction and the product of automata explore a graph whose vertices are not
states, but sets or pairs of states, and make an automaton of what they find. Every vertex gets
its own name, the suggested one where possible: the names are claimed in the order in which the
vertices are discovered, so two vertices with one suggestion still become two states.
-/

namespace RegularLanguages.Automaton

variable {σ : Type} [BEq σ] [Hashable σ]

/-- The automaton of the vertices that can be reached from `start`: `moves` gives the
transitions, `title` suggests the names and `accepting` tells the final states. `fuel` bounds
the number of vertices. -/
def unfold (alphabet : OrderedSet Char) (moves : σ → List (Char × σ)) (title : σ → State)
    (accepting : σ → Bool) (fuel : Nat) (start : σ) : Automaton :=
  let found := Search.explore moves fuel [start]
  let named := found.zip (FreshNames.empty.claimAll (found.map fun v => title v.1))
  let names := Std.HashMap.ofList (named.map fun v => (v.1.1, v.2))
  let nameOf v := names.getD v (title v)
  { states := .ofList (named.map (·.2))
    alphabet := alphabet
    edges := .ofList (named.flatMap fun v => v.1.2.map fun (c, w) => ⟨v.2, .symbol c, nameOf w⟩)
    initial := some (nameOf start)
    finals := .ofList ((named.filter fun v => accepting v.1.1).map (·.2)) }

end RegularLanguages.Automaton
