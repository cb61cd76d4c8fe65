import RegularLanguages.Automaton.Completion
import RegularLanguages.Automaton.Epsilon

/-!
# Complement, intersection and difference

The Boolean operations. A complement is taken relative to an alphabet, and the difference of two
automata relative to both of their alphabets, so that words with symbols that the second
automaton does not know remain.
-/

namespace RegularLanguages.Automaton

/-- The automaton in which exactly the states that were not final are final. -/
def swapFinals (A : Automaton) : Automaton :=
  { A with finals := A.states.filter fun q => !A.isFinal q }

/-- Accepts the words over the alphabet, extended by the given symbols, that the automaton does
not accept. -/
def complementOver (A : Automaton) (symbols : OrderedSet Char) : Automaton :=
  let E := A.extended symbols
  (if E.initial.isSome then E.complete else rejecting E.alphabet ⟨"q0"⟩).swapFinals

/-- Accepts the words over the alphabet that the automaton does not accept. -/
def complement (A : Automaton) : Automaton := A.complementOver A.alphabet

/-- The transitions of the product of two automata without transitions on the empty word. -/
def pairMoves (L R : Adjacency) (alphabet : OrderedSet Char) (v : State × State) :
    List (Char × (State × State)) :=
  alphabet.toList.flatMap fun c =>
    (L.targets v.1 (.symbol c)).flatMap fun p =>
      (R.targets v.2 (.symbol c)).map fun q => (c, (p, q))

/-- Accepts the words that both automata accept: the pairs of states that one word can lead to,
over the common alphabet. Without both initial states it has no states. -/
def intersection (A B : Automaton) : Automaton :=
  let alphabet := A.alphabet ∩ B.alphabet
  let L := A.removeEpsilon
  let R := B.removeEpsilon
  match L.initial, R.initial with
  | some p, some q =>
    unfold alphabet (pairMoves L.adjacency R.adjacency alphabet) (fun v => .ofPair v.1 v.2)
      (fun v => L.isFinal v.1 && R.isFinal v.2) (L.size * R.size) (p, q)
  | _, _ => void alphabet

/-- Accepts the words that the first automaton accepts and the second does not. -/
def difference (A B : Automaton) : Automaton :=
  A.intersection (B.complementOver (A.alphabet ∪ B.alphabet))

end RegularLanguages.Automaton
