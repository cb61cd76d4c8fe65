import RegularLanguages.Automaton.Edit

/-!
# Assembling an automaton in one go

A blueprint collects declarations in any order; the automaton is assembled at the end. States
that a transition, the initial or a final state mentions need no declaration of their own,
symbols do.
-/

namespace RegularLanguages

/-- The declarations made so far. -/
structure Blueprint where
  states : List State
  symbols : List Char
  edges : List Edge
  initial : Option State
  finals : List State

namespace Blueprint

/-- The blueprint without declarations. -/
def empty : Blueprint := ⟨[], [], [], none, []⟩

/-- One call to a blueprint. -/
inductive Declaration
  | states (qs : List State)
  | alphabet (symbols : List Char)
  | transitions (edges : List Edge)
  | epsilonTransitions (pairs : List (State × State))
  | initial (q : State)
  | finals (qs : List State)

/-- Takes note of a declaration. Of several initial states the last one counts. -/
def declare (b : Blueprint) : Declaration → Blueprint
  | .states qs => { b with states := b.states ++ qs }
  | .alphabet symbols => { b with symbols := b.symbols ++ symbols }
  | .transitions edges => { b with edges := b.edges ++ edges }
  | .epsilonTransitions pairs =>
    { b with edges := b.edges ++ pairs.map fun (p, q) => ⟨p, .epsilon, q⟩ }
  | .initial q => { b with initial := some q }
  | .finals qs => { b with finals := b.finals ++ qs }

/-- Every state that some declaration mentions. -/
def mentioned (b : Blueprint) : List State :=
  b.states ++ b.edges.flatMap (fun e => [e.source, e.target]) ++ b.initial.toList ++ b.finals

/-- Assembles the automaton through checked edits. -/
def build (b : Blueprint) : Except AutomatonError Automaton := do
  let A ← Automaton.ofSymbols b.symbols
  let A := b.mentioned.foldl Automaton.addState A
  let A ← b.edges.foldlM Automaton.addEdge A
  let A ← b.initial.toList.foldlM Automaton.setInitial A
  b.finals.foldlM Automaton.addFinal A

/-- Assembles the automaton of a sequence of declarations. -/
def assemble (declarations : List Declaration) : Except AutomatonError Automaton :=
  (declarations.foldl declare empty).build

end Blueprint

end RegularLanguages
