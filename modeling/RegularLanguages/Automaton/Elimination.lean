import RegularLanguages.Automaton.Reachability
import RegularLanguages.Regex.Basic

/-!
# Expressions of automata

State elimination: between any two nodes stands an expression for the words that lead from one
to the other through eliminated states alone. The nodes are the states, a source in front of the
initial state and a sink behind the final states; when all states are eliminated, what stands
between source and sink is the language. States go in shortlex order, which fixes the shape of
the expression.
-/

namespace RegularLanguages

/-- A node of the elimination: a state, or one of the two ends. -/
inductive Node
  | source
  | state (q : State)
  | sink
deriving DecidableEq, Hashable

/-- The expressions between nodes. Where there is none, no word leads from one to the other. -/
structure Connections where
  table : Std.HashMap (Node × Node) Regex

namespace Connections

/-- The expression from `i` to `j`. -/
def between (M : Connections) (i j : Node) : Option Regex := M.table[(i, j)]?

/-- Adds an expression between two nodes to what stands there. -/
def add (M : Connections) (i j : Node) (r : Regex) : Connections :=
  ⟨M.table.insert (i, j) (Regex.adjoin (M.between i j) r)⟩

/-- What leads from `i` to `j` through `k`: into `k`, any number of times around it, and out. -/
def through (M : Connections) (k i j : Node) : Option Regex :=
  match M.between i k, M.between k j with
  | some into, some out =>
    match M.between k k with
    | some around => some ((into.append around.iterate).append out)
    | none => some (into.append out)
  | _, _ => none

/-- Eliminates the node `k`: between the remaining nodes, adds what leads through `k`. -/
def eliminate (M : Connections) (k : Node) (remaining : List Node) : Connections :=
  (remaining.flatMap fun i => remaining.map fun j => (i, j)).foldl (fun N (i, j) =>
    match M.through k i j with
    | some r => N.add i j r
    | none => N) M

/-- Eliminates the given states one after the other. -/
def eliminateAll (M : Connections) : List State → Connections
  | [] => M
  | k :: rest =>
    (M.eliminate (.state k) (rest.map .state ++ [.source, .sink])).eliminateAll rest

end Connections

namespace Automaton

/-- The expressions before any elimination: the labels between states, the empty word from each
state to itself, from the source to the initial state and from the final states to the sink. -/
def connections (A : Automaton) : Connections :=
  let M : Connections := A.edges.toList.foldl
    (fun M e => M.add (.state e.source) (.state e.target) (.ofLabel e.label)) ⟨∅⟩
  let M := A.states.toList.foldl (fun M q => M.add (.state q) (.state q) .epsilon) M
  let M := A.initial.toList.foldl (fun M q => M.add .source (.state q) .epsilon) M
  A.finals.toList.foldl (fun M q => M.add (.state q) .sink .epsilon) M

/-- An expression for the language, none if the language is empty. -/
def toRegex (A : Automaton) : Option Regex :=
  let P := A.prune
  if P.initial.isNone then none
  else (P.connections.eliminateAll P.states.toList).between .source .sink

end Automaton

end RegularLanguages
