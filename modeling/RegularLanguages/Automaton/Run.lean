import RegularLanguages.Automaton.Adjacency
import RegularLanguages.Search
import RegularLanguages.Word

/-!
# Runs on words

An automaton reads a word with all its states at once: it keeps the set of states that some run
may be in, closed under transitions on the empty word, and moves this set symbol by symbol.
-/

namespace RegularLanguages

namespace Adjacency

/-- The states that can be reached from the seeds by transitions on the empty word, the seeds
among them. -/
def closure (G : Adjacency) (seeds : List State) : OrderedSet State :=
  .ofList (Search.reachable (fun q => (G.edgesOf q).filter (·.1 = .epsilon))
    (seeds.length + G.size) seeds)

/-- The targets of the transitions on `c` from any of the given states. -/
def step (G : Adjacency) (states : OrderedSet State) (c : Char) : List State :=
  states.toList.flatMap fun q => G.targets q (.symbol c)

/-- The closed set of states that reading `w` leads to from any of the given states. -/
def run (G : Adjacency) (states : OrderedSet State) (w : Word) : OrderedSet State :=
  w.foldl (fun states c => G.closure (G.step states c)) states

end Adjacency

namespace Automaton

/-- The states that can be reached from the seeds by transitions on the empty word. The seeds
need not be states of the automaton. -/
def epsilonClosure (A : Automaton) (seeds : List State) : OrderedSet State :=
  A.adjacency.closure seeds

/-- The closure of every state. -/
def epsilonClosures (A : Automaton) : List (State × OrderedSet State) :=
  let G := A.adjacency
  A.states.toList.map fun q => (q, G.closure [q])

/-- Whether the automaton accepts the word. Without initial state it accepts none. -/
def accepts (A : Automaton) (w : Word) : Bool :=
  match A.initial with
  | none => false
  | some q =>
    let G := A.adjacency
    (G.run (G.closure [q]) w).toList.any A.isFinal

/-- The accepted words of at most the given length. -/
def acceptedUpTo (A : Automaton) (maxLength : Nat) : List Word :=
  (Word.upTo A.alphabet maxLength).filter A.accepts

end Automaton

end RegularLanguages
