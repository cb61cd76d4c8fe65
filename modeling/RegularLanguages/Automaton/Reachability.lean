import RegularLanguages.Automaton.Run

/-!
# Accessible and useful states

A state is accessible if some path of transitions leads to it from the initial state, and
co-accessible if some path leads from it to a final state. States that are both are useful: the
others can be removed without changing the language.
-/

namespace RegularLanguages.Automaton

/-- The states that can be reached from the initial state. An automaton without initial state
is refused. -/
def accessible? (A : Automaton) : Except AutomatonError (OrderedSet State) :=
  match A.initial with
  | none => .error .noInitialState
  | some q =>
    let G := A.adjacency
    .ok (.ofList (Search.reachable G.edgesOf (G.size + 1) [q]))

/-- The states that can be reached from the initial state, none if there is no initial state. -/
def accessible (A : Automaton) : OrderedSet State :=
  match A.accessible? with
  | .ok states => states
  | .error _ => ∅

/-- The states from which a final state can be reached. -/
def coAccessible (A : Automaton) : OrderedSet State :=
  let G := A.reverseAdjacency
  .ofList (Search.reachable G.edgesOf (A.finals.size + G.size) A.finals.toList)

/-- The states that are both accessible and co-accessible. -/
def useful (A : Automaton) : OrderedSet State := A.accessible ∩ A.coAccessible

/-- Whether no word is accepted. -/
def isEmptyLanguage (A : Automaton) : Bool := A.useful.isEmpty

/-- The part of the automaton that lies within the given states. -/
def within (A : Automaton) (kept : OrderedSet State) : Automaton :=
  A.restrict (· ∈ kept)

/-- The automaton without the states that are not accessible. -/
def withoutUnreachable (A : Automaton) : Automaton := A.within A.accessible

/-- The automaton without the states that are not useful. -/
def prune (A : Automaton) : Automaton := A.within A.useful

/-- Whether every state is useful. -/
def isPruned (A : Automaton) : Bool := A.useful.size = A.size

end RegularLanguages.Automaton
