import RegularLanguages.Automaton.Run
import RegularLanguages.Automaton.Unfolding

/-!
# The subset construction

The states of the deterministic automaton are the nonempty closed sets of states that reading a
word can lead to. A set is named by its members in order, such as `{q0,q2}`; the empty set is not
a state, so a transition into it is missing.
-/

namespace RegularLanguages

/-- The transitions from a closed set of states: for every symbol the closed set that it leads
to, unless that is empty. -/
def Adjacency.subsetMoves (G : Adjacency) (alphabet : OrderedSet Char) (S : OrderedSet State) :
    List (Char × OrderedSet State) :=
  alphabet.toList.filterMap fun c =>
    let T := G.closure (G.step S c)
    if T.isEmpty then none else some (c, T)

namespace Automaton

/-- The deterministic automaton of the closed sets of states that can be reached. Without
initial state it has no states. -/
def determinize (A : Automaton) : Automaton :=
  match A.initial with
  | none => void A.alphabet
  | some q =>
    let G := A.adjacency
    unfold A.alphabet (G.subsetMoves A.alphabet) (fun S => .ofSubset S.toList)
      (fun S => S.toList.any A.isFinal) (Nat.pow 2 A.size) (G.closure [q])

end Automaton

end RegularLanguages
