import RegularLanguages.Automaton.Edit
import RegularLanguages.Automaton.TransitionMap

/-!
# Automata as they are stored

An automaton that is edited in place: its transitions are a two-level map, and an edit changes
what is stored step by step. An edit that is refused halfway would leave what it has changed so
far. That none does, and that the stored automaton is always the one that the five sets describe
(`toAutomaton`), is a matter of proof.
-/

namespace RegularLanguages

/-- An automaton whose transitions are a two-level map. -/
structure StoredAutomaton where
  states : OrderedSet State
  alphabet : OrderedSet Char
  transitions : TransitionMap
  initial : Option State
  finals : OrderedSet State
deriving DecidableEq

namespace StoredAutomaton

/-- The automaton that is stored. -/
def toAutomaton (S : StoredAutomaton) : Automaton where
  states := S.states
  alphabet := S.alphabet
  edges := .ofList S.transitions.edges
  initial := S.initial
  finals := S.finals

/-- The stored automaton over an alphabet that has no states. -/
def void (alphabet : OrderedSet Char) : StoredAutomaton := ⟨∅, alphabet, .empty, none, ∅⟩

/-- The stored automaton without states over the given symbols, which must not contain `ε`. -/
def ofSymbols (symbols : List Char) : Except AutomatonError StoredAutomaton := do
  let alphabet := OrderedSet.ofList symbols
  if epsilonChar ∈ alphabet then throw (.unknownSymbol epsilonChar.toString)
  return void alphabet

/-- A change in place, which may be refused after a part of it has been carried out. -/
abbrev Change := ExceptT AutomatonError (StateM StoredAutomaton)

/-- The given state, provided it belongs to the automaton. -/
def checkState (q : State) : Change State := do
  if q ∈ (← get).states then return q else throw (.unknownState q)

/-- The given label, provided it is the empty word or in the alphabet. -/
def checkLabel (a : Label) : Change Label := do
  match a with
  | .epsilon => return a
  | .symbol c =>
    if c ∈ (← get).alphabet then return a else throw (.unknownSymbol c.toString)

/-- Adds a state, and tells whether it was new. -/
def addState (q : State) : Change Bool := do
  let S ← get
  set { S with states := S.states.insert q }
  return q ∉ S.states

/-- Removes a state with every transition that starts or ends in it, and tells whether it was
there. -/
def removeState (q : State) : Change Bool := do
  if q ∉ (← get).states then return false
  modify fun S => { S with states := S.states.erase q }
  modify fun S => { S with transitions := S.transitions.removeState q }
  modify fun S => { S with finals := S.finals.erase q }
  if (← get).initial = some q then
    modify fun S => { S with initial := none }
  return true

/-- Designates the initial state. -/
def setInitial (q : State) : Change Unit := do
  let q ← checkState q
  modify fun S => { S with initial := some q }

/-- Leaves the automaton without initial state. -/
def clearInitial : Change Unit := modify fun S => { S with initial := none }

/-- Makes a state final. -/
def addFinal (q : State) : Change Unit := do
  let q ← checkState q
  modify fun S => { S with finals := S.finals.insert q }

/-- Makes a state not final, and tells whether it was. -/
def removeFinal (q : State) : Change Bool := do
  let S ← get
  set { S with finals := S.finals.erase q }
  return q ∈ S.finals

/-- Adds symbols to the alphabet. -/
def extendAlphabet (symbols : List Char) : Change Unit := do
  if epsilonChar ∈ symbols then throw (.unknownSymbol epsilonChar.toString)
  modify fun S => { S with alphabet := .ofList symbols ∪ S.alphabet }

/-- Adds transitions from one state on one label to each of the targets. Without targets nothing
is stored. -/
def addTransition (source : State) (label : Label) (targets : List State) : Change Unit := do
  let label ← checkLabel label
  let source ← checkState source
  let targets ← targets.mapM checkState
  if targets.isEmpty then return
  modify fun S => { S with transitions := S.transitions.add source label targets }

/-- Adds a single transition. -/
def addEdge (e : Edge) : Change Unit := addTransition e.source e.label [e.target]

/-- Removes all transitions that leave a state on a label, and tells their targets. -/
def removeTransition (source : State) (label : Label) : Change (Option (OrderedSet State)) := do
  let S ← get
  let (targets, transitions) := S.transitions.removeLabel source label
  set { S with transitions }
  return targets

/-- Carries out an edit. -/
def change : Automaton.Edit → Change Automaton.Report
  | .addState q => return .changed (← addState q)
  | .removeState q => return .changed (← removeState q)
  | .setInitial q => do setInitial q; return .nothing
  | .clearInitial => do clearInitial; return .nothing
  | .addFinal q => do addFinal q; return .nothing
  | .removeFinal q => return .changed (← removeFinal q)
  | .extendAlphabet symbols => do extendAlphabet symbols; return .nothing
  | .addTransition source label targets => do addTransition source label targets; return .nothing
  | .addEdge e => do addEdge e; return .nothing
  | .removeTransition source label => return .removed (← removeTransition source label)

/-- What an edit tells, and what is stored after it, also if the edit is refused. -/
def attempt (S : StoredAutomaton) (e : Automaton.Edit) :
    Except AutomatonError Automaton.Report × StoredAutomaton :=
  (change e).run.run S

/-- What the edits of a list tell one after the other, and what is stored after the last one. -/
def attemptAll (S : StoredAutomaton) : List Automaton.Edit →
    List (Except AutomatonError Automaton.Report) × StoredAutomaton
  | [] => ([], S)
  | e :: edits =>
    let (outcome, S) := S.attempt e
    let (outcomes, S) := S.attemptAll edits
    (outcome :: outcomes, S)

end StoredAutomaton

end RegularLanguages
