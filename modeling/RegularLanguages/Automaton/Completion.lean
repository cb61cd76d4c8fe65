import RegularLanguages.Automaton.Subsets

/-!
# Complete automata

A deterministic automaton is completed by a single further state, the sink, to which all missing
transitions lead and which is never left. An automaton that misses none stays as it is.
-/

namespace RegularLanguages.Automaton

/-- The pairs of a state and a symbol on which no transition leaves it. -/
def gaps (A : Automaton) : List (State × Char) :=
  A.states.toList.flatMap fun q =>
    (A.alphabet.toList.filter fun c => !A.hasMove q c).map fun c => (q, c)

/-- The automaton with a sink state that receives all missing transitions, unless there are
none. -/
def withSink (A : Automaton) : Automaton :=
  let gaps := A.gaps
  if gaps.isEmpty then A
  else
    let sink := ((FreshNames.avoiding A.states.toList).claim ⟨"sink"⟩).1
    { A with
      states := A.states.insert sink
      edges := .ofList (gaps.map fun (q, c) => ⟨q, .symbol c, sink⟩) ∪
        .ofList (A.alphabet.toList.map fun c => ⟨sink, .symbol c, sink⟩) ∪ A.edges }

/-- A complete deterministic automaton for the same language: a nondeterministic automaton is
determinized, then missing transitions are led to a sink. -/
def complete (A : Automaton) : Automaton :=
  (if A.isDeterministic then A else A.determinize).withSink

end RegularLanguages.Automaton
