import RegularLanguages.Automaton.Run
import RegularLanguages.FreshNames

/-!
# Transitions on the empty word

They can be removed without changing the states, and they can be introduced by putting a new
state into the middle of every other transition. Neither changes the language.
-/

namespace RegularLanguages.Automaton

/-- The automaton without transitions on the empty word. A state moves on a symbol wherever it
could move before when reading only that symbol, and is final if it could reach a final state
without reading. -/
def removeEpsilon (A : Automaton) : Automaton :=
  let G := A.adjacency
  let closures := A.states.toList.map fun q => (q, G.closure [q])
  { states := A.states
    alphabet := A.alphabet
    edges := .ofList (closures.flatMap fun (q, closed) =>
      A.alphabet.toList.flatMap fun c =>
        (G.closure (G.step closed c)).toList.map fun p => ⟨q, .symbol c, p⟩)
    initial := A.initial
    finals := .ofList ((closures.filter fun (_, closed) => closed.toList.any A.isFinal).map (·.1)) }

/-- Puts a new state, numbered `eps0, eps1, …`, into the middle of every transition on a symbol,
one transition after the other. -/
def subdivide : FreshNames → List Edge → List Edge
  | _, [] => []
  | names, e :: edges =>
    match e.label with
    | .epsilon => e :: subdivide names edges
    | .symbol _ =>
      let (middle, names) := names.fresh "eps"
      ⟨e.source, .epsilon, middle⟩ :: ⟨middle, e.label, e.target⟩ :: subdivide names edges

/-- The automaton in which every transition on a symbol starts with a transition on the empty
word to a new state of its own. -/
def addEpsilon (A : Automaton) : Automaton :=
  let edges := subdivide (.avoiding A.states.toList) A.edges.toList
  { A with
    states := .ofList (edges.map (·.source)) ∪ A.states
    edges := .ofList edges }

end RegularLanguages.Automaton
