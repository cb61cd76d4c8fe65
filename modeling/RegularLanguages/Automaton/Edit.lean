import RegularLanguages.Automaton.Basic

/-!
# Checked edits

The operations by which an automaton is put together step by step. An edit that mentions a
state or a symbol that the automaton lacks is refused; label, source and targets are checked in
this order. `Edit` names the operations, `edit` carries one out and `attemptAll` carries out
several, of which those that are refused change nothing.
-/

namespace RegularLanguages.Automaton

/-- The given state, provided it belongs to the automaton. -/
def checkState (A : Automaton) (q : State) : Except AutomatonError State :=
  if q ∈ A.states then .ok q else .error (.unknownState q)

/-- The given label, provided it is the empty word or in the alphabet. -/
def checkLabel (A : Automaton) : Label → Except AutomatonError Label
  | .epsilon => .ok .epsilon
  | .symbol c =>
    if c ∈ A.alphabet then .ok (.symbol c) else .error (.unknownSymbol c.toString)

/-- Adds a state. -/
def addState (A : Automaton) (q : State) : Automaton := { A with states := A.states.insert q }

/-- Removes a state with every transition that starts or ends in it. An initial state that is
removed leaves the automaton without one. -/
def removeState (A : Automaton) (q : State) : Automaton where
  states := A.states.erase q
  alphabet := A.alphabet
  edges := A.edges.filter fun e => e.source ≠ q ∧ e.target ≠ q
  initial := A.initial.filter (· ≠ q)
  finals := A.finals.erase q

/-- Designates the initial state. -/
def setInitial (A : Automaton) (q : State) : Except AutomatonError Automaton := do
  let q ← A.checkState q
  return { A with initial := some q }

/-- Leaves the automaton without initial state. -/
def clearInitial (A : Automaton) : Automaton := { A with initial := none }

/-- Makes a state final. -/
def addFinal (A : Automaton) (q : State) : Except AutomatonError Automaton := do
  let q ← A.checkState q
  return { A with finals := A.finals.insert q }

/-- Makes a state not final. -/
def removeFinal (A : Automaton) (q : State) : Automaton := { A with finals := A.finals.erase q }

/-- Adds symbols to the alphabet. If `ε` is among them none is added. -/
def extendAlphabet (A : Automaton) (symbols : List Char) : Except AutomatonError Automaton :=
  if epsilonChar ∈ symbols then .error (.unknownSymbol epsilonChar.toString)
  else .ok { A with alphabet := .ofList symbols ∪ A.alphabet }

/-- Adds transitions from one state on one label to each of the targets. If any of these is
refused none is added. -/
def addTransition (A : Automaton) (source : State) (label : Label) (targets : List State) :
    Except AutomatonError Automaton := do
  let label ← A.checkLabel label
  let source ← A.checkState source
  let targets ← targets.mapM A.checkState
  return { A with edges := .ofList (targets.map fun q => ⟨source, label, q⟩) ∪ A.edges }

/-- Adds a single transition. -/
def addEdge (A : Automaton) (e : Edge) : Except AutomatonError Automaton :=
  A.addTransition e.source e.label [e.target]

/-- Removes all transitions that leave a state on a label. -/
def removeTransition (A : Automaton) (source : State) (label : Label) : Automaton :=
  { A with edges := A.edges.filter fun e => ¬(e.source = source ∧ e.label = label) }

/-- The edits of an automaton. -/
inductive Edit
  | addState (q : State)
  | removeState (q : State)
  | setInitial (q : State)
  | clearInitial
  | addFinal (q : State)
  | removeFinal (q : State)
  | extendAlphabet (symbols : List Char)
  | addTransition (source : State) (label : Label) (targets : List State)
  | addEdge (e : Edge)
  | removeTransition (source : State) (label : Label)
deriving DecidableEq

/-- What an edit tells besides the edited automaton. -/
inductive Report
  | nothing
  /-- Whether the state was new, was there or was final. -/
  | changed (b : Bool)
  /-- The targets of the removed transitions, if there were any. -/
  | removed (targets : Option (OrderedSet State))
deriving DecidableEq

/-- Carries out an edit. -/
def edit (A : Automaton) : Edit → Except AutomatonError (Automaton × Report)
  | .addState q => .ok (A.addState q, .changed (q ∉ A.states))
  | .removeState q => .ok (A.removeState q, .changed (q ∈ A.states))
  | .setInitial q => (A.setInitial q).map (·, .nothing)
  | .clearInitial => .ok (A.clearInitial, .nothing)
  | .addFinal q => (A.addFinal q).map (·, .nothing)
  | .removeFinal q => .ok (A.removeFinal q, .changed (A.isFinal q))
  | .extendAlphabet symbols => (A.extendAlphabet symbols).map (·, .nothing)
  | .addTransition source label targets =>
    (A.addTransition source label targets).map (·, .nothing)
  | .addEdge e => (A.addEdge e).map (·, .nothing)
  | .removeTransition source label =>
    let targets := A.successors source label
    .ok (A.removeTransition source label,
      .removed (if targets.isEmpty then none else some targets))

/-- What an edit tells, and the automaton after it: the same one if the edit is refused. -/
def attempt (A : Automaton) (e : Edit) : Except AutomatonError Report × Automaton :=
  match A.edit e with
  | .ok (B, report) => (.ok report, B)
  | .error error => (.error error, A)

/-- What the edits of a list tell one after the other, and the automaton after the last one. -/
def attemptAll (A : Automaton) : List Edit → List (Except AutomatonError Report) × Automaton
  | [] => ([], A)
  | e :: edits =>
    let (outcome, A) := A.attempt e
    let (outcomes, A) := A.attemptAll edits
    (outcome :: outcomes, A)

end RegularLanguages.Automaton
