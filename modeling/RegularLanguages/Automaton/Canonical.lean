import RegularLanguages.Automaton.Minimal

/-!
# Canonical automata

The minimal automaton with its states numbered `q0, q1, …` in the order in which a breadth first
search from the initial state discovers them, symbols taken in order. It depends on the alphabet
and the language alone, which decides whether two automata accept the same words.
-/

namespace RegularLanguages.Automaton

/-- The automaton with its accessible states numbered in the order of their discovery. Other
states keep their names. -/
def numberedByDiscovery (A : Automaton) : Automaton :=
  let G := A.adjacency
  let found := Search.reachable G.edgesOf (G.size + 1) A.initial.toList
  let names := Std.HashMap.ofList (found.zipIdx.map fun (q, i) => (q, State.numbered "q" i))
  A.rename fun q => names.getD q q

/-- The canonical automaton for the language over the alphabet. -/
def canonicalize (A : Automaton) : Automaton :=
  A.determinize.complete.prune.minimize.numberedByDiscovery

/-- Whether the automaton is its own canonical automaton. -/
def isCanonical (A : Automaton) : Bool := A = A.canonicalize

/-- Whether two automata accept the same words. -/
def equivalent (A B : Automaton) : Bool :=
  (A.extended B.alphabet).canonicalize = (B.extended A.alphabet).canonicalize

/-- The first word of at most the given length, in length-lexicographic order over both
alphabets, that one automaton accepts and the other does not. -/
def firstDisagreement (A B : Automaton) (maxLength : Nat) : Option Word :=
  Word.findUpTo? (A.alphabet ∪ B.alphabet) maxLength fun w => A.accepts w ≠ B.accepts w

end RegularLanguages.Automaton
