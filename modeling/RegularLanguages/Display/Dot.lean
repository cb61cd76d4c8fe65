import RegularLanguages.Automaton.Adjacency

/-!
# Graphs in the DOT language

The graph of an automaton: a node per state, drawn with a double circle if the state is final, an
invisible node that points at the initial state, and one edge for every pair of states that are
joined by transitions, labelled with all of their labels.
-/

namespace RegularLanguages.Dot

/-- A name in quotes, with backslashes and quotes escaped. -/
def quoted (text : String) : String :=
  "\"" ++ String.ofList (text.toList.flatMap fun c =>
    if c = '\\' ∨ c = '"' then ['\\', c] else [c]) ++ "\""

/-- The line that draws a state. -/
def node (A : Automaton) (q : State) : String :=
  quoted q.name ++ " [shape=" ++ (if A.isFinal q then "doublecircle" else "circle") ++ "]"

/-- The line that draws all transitions from one state to another. -/
def edge (p q : State) (labels : List Label) : String :=
  quoted p.name ++ " -> " ++ quoted q.name ++
    " [label=\"" ++ ", ".intercalate (labels.map Label.toText) ++ "\"]"

/-- The lines that draw the transitions from a state, by their targets. -/
def edgesOf (G : Adjacency) (p : State) : List String :=
  let steps := G.edgesOf p
  (OrderedSet.ofList (steps.map (·.2))).toList.map fun q =>
    edge p q ((steps.filter (·.2 = q)).map (·.1))

/-- The graph of an automaton. -/
def ofAutomaton (A : Automaton) : String :=
  let G := A.adjacency
  "\n".intercalate (
    ["digraph A \x7b", "rankdir=LR", "init [label=\"\", shape=none]"] ++
    A.states.toList.map (node A) ++
    A.initial.toList.map (fun q => "init -> " ++ quoted q.name) ++
    A.states.toList.flatMap (edgesOf G) ++
    ["\x7d"])

end RegularLanguages.Dot
