import RegularLanguages.Automaton.Completion
import RegularLanguages.Automaton.Reachability
import RegularLanguages.Partition
import RegularLanguages.Refinement

/-!
# Minimal automata

States of a complete deterministic automaton that cannot be told apart by any word form the
classes of the Nerode partition. The minimal automaton has one state per class of accessible
states, named after the least member of the class.
-/

namespace RegularLanguages.Automaton

/-- The transition function of a complete deterministic automaton. -/
structure TransitionFunction where
  targets : Std.HashMap (State × Label) State

/-- The transition function, read off the transitions. -/
def transitionFunction (A : Automaton) : TransitionFunction :=
  ⟨.ofList (A.edges.toList.map fun e => ((e.source, e.label), e.target))⟩

/-- The state that `q` moves to on `c`. -/
def TransitionFunction.next (δ : TransitionFunction) (q : State) (c : Char) : State :=
  δ.targets.getD (q, .symbol c) q

/-- The classes of states of a complete deterministic automaton that accept the same words, each
in increasing order. -/
def blocks (A : Automaton) : List (List State) :=
  let δ := A.transitionFunction
  Refinement.refine A.alphabet.toList δ.next A.isFinal A.states.toList

/-- The partition of the states of the completed automaton into those that accept the same
words. -/
def nerodePartition (A : Automaton) : Partition State := .ofLists A.complete.blocks

/-- A complete deterministic automaton with each class of states that accept the same words
merged into its least member. -/
def merged (A : Automaton) : Automaton :=
  let δ := A.transitionFunction
  let blocks := A.blocks
  let leasts := Std.HashMap.ofList
    (blocks.flatMap fun block => block.map fun q => (q, block.headD q))
  let leastOf q := leasts.getD q q
  let states := OrderedSet.ofList (blocks.filterMap List.head?)
  { states := states
    alphabet := A.alphabet
    edges := .ofList (states.toList.flatMap fun q =>
      A.alphabet.toList.map fun c => ⟨q, .symbol c, leastOf (δ.next q c)⟩)
    initial := A.initial.map leastOf
    finals := states.filter A.isFinal }

/-- The minimal complete deterministic automaton for the same language. Without initial state
it is the automaton with the single state `q0` that rejects every word. -/
def minimize (A : Automaton) : Automaton :=
  let D := if A.isDeterministic then A.withoutUnreachable else A.determinize
  if D.initial.isNone then rejecting A.alphabet ⟨"q0"⟩ else D.complete.merged

/-- Whether the automaton is deterministic with an initial state, all its states are accessible
and no two of them accept the same words, where a missing transition rejects. -/
def isMinimal (A : Automaton) : Bool :=
  A.isDeterministic && A.initial.isSome && A.accessible.size = A.size &&
    A.nerodePartition.classes.all fun block => (block.filter (· ∈ A.states)).size ≤ 1

end RegularLanguages.Automaton
