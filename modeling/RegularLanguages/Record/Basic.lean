import RegularLanguages.Automaton.Adjacency
import RegularLanguages.Automaton.Edit
import RegularLanguages.FreshNames

/-!
# The exchange record

Automata are exchanged as records of texts: symbols are texts of one character, `ε` labels
transitions on the empty word, and the initial states are a list. A record with several initial
states means an automaton with a new initial state that leads to each of them.
-/

namespace RegularLanguages

/-- The exchange record of an automaton. -/
structure Record where
  states : List String
  alphabet : List String
  /-- For each source and each symbol the targets. The keys are in increasing order, each once. -/
  transitions : List (String × List (String × List String))
  initial : List String
  finals : List String
deriving DecidableEq, Inhabited

namespace Record

/-- Puts a value under a key into a list that is ordered by its keys. A value that is there
already is replaced. -/
def insertKey {α : Type} (key : String) (value : α) : List (String × α) → List (String × α)
  | [] => [(key, value)]
  | (k, v) :: rest =>
    match compare key k with
    | .lt => (key, value) :: (k, v) :: rest
    | .eq => (key, value) :: rest
    | .gt => (k, v) :: insertKey key value rest

/-- The symbol that a text of one character is. -/
def parseSymbol (text : String) : Except AutomatonError Char :=
  match text.toList with
  | [c] => .ok c
  | _ => .error (.unknownSymbol text)

/-- Adds the transitions from one source. -/
def addEntries (source : String) (A : Automaton) (entries : List (String × List String)) :
    Except AutomatonError Automaton :=
  entries.foldlM (fun A (symbol, targets) => do
    let c ← parseSymbol symbol
    A.addTransition ⟨source⟩ (.ofChar c) (targets.map State.mk)) A

/-- Designates the initial states: none, a single one, or a new state that leads to all of
them by transitions on the empty word. -/
def addInitial (A : Automaton) : List String → Except AutomatonError Automaton
  | [] => .ok A
  | [q] => A.setInitial ⟨q⟩
  | qs => do
    let targets ← (qs.map State.mk).mapM A.checkState
    let start := ((FreshNames.avoiding A.states.toList).claim ⟨"init"⟩).1
    let A ← (A.addState start).addTransition start .epsilon targets
    A.setInitial start

/-- The automaton that a record describes. Alphabet, states, transitions, initial and final
states are checked in this order. -/
def toAutomaton (R : Record) : Except AutomatonError Automaton := do
  let symbols ← R.alphabet.mapM parseSymbol
  let A ← Automaton.ofSymbols symbols
  let A := R.states.foldl (fun A q => A.addState ⟨q⟩) A
  let A ← R.transitions.foldlM (fun A (source, entries) => addEntries source A entries) A
  let A ← addInitial A R.initial
  R.finals.foldlM (fun A q => A.addFinal ⟨q⟩) A

/-- The entries for the transitions that leave a state, by label. -/
def entriesOf (G : Adjacency) (q : State) : List (String × List String) :=
  (OrderedSet.ofList ((G.edgesOf q).map (·.1))).toList.foldl (fun entries a =>
    insertKey a.toText ((G.targets q a).map State.name) entries) []

/-- The record that describes an automaton. -/
def ofAutomaton (A : Automaton) : Record :=
  let G := A.adjacency
  let sources := OrderedSet.ofList (A.edges.toList.map (·.source))
  { states := A.states.toList.map State.name
    alphabet := A.alphabet.toList.map Char.toString
    transitions := sources.toList.foldl (fun entries q =>
      insertKey q.name (entriesOf G q) entries) []
    initial := A.initial.toList.map State.name
    finals := A.finals.toList.map State.name }

end Record

end RegularLanguages
