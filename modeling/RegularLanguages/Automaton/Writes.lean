import RegularLanguages.Automaton.Stored

/-!
# Writes without checks

A construction makes a new automaton by writes that are not checked: a final or initial state
becomes a state if it was none, and so do both ends of a transition. What a construction must see
to itself is asserted: a new automaton has no `ε` in its alphabet, and a transition is on the
empty word or on a symbol of the alphabet. `Violation` names the assertions that can fail.
-/

namespace RegularLanguages

/-- A write to an automaton that is being made. -/
inductive Write
  | state (q : State)
  | link (e : Edge)
  | final (q : State)
  | initial (q : State)
deriving DecidableEq

/-- An assertion that does not hold. -/
inductive Violation
  /-- A new automaton has `ε` in its alphabet. -/
  | alphabet
  /-- A transition is on a label that is neither the empty word nor in the alphabet. -/
  | label (a : Label)
  /-- A table is made of an automaton that is not deterministic and complete. -/
  | table
deriving DecidableEq

namespace Write

/-- The writes that make an automaton of the given parts. -/
def ofParts (states : List State) (edges : List Edge) (finals : List State)
    (initial : Option State) : List Write :=
  states.map .state ++ edges.map .link ++ finals.map .final ++ initial.toList.map .initial

end Write

namespace StoredAutomaton

/-- A new automaton over an alphabet that is known not to contain `ε`. -/
def blank (alphabet : OrderedSet Char) : Except Violation StoredAutomaton :=
  if epsilonChar ∈ alphabet then .error .alphabet else .ok (void alphabet)

/-- Carries out a write. -/
def write (S : StoredAutomaton) : Write → Except Violation StoredAutomaton
  | .state q => .ok { S with states := S.states.insert q }
  | .link e =>
    if e.label.symbol?.all (· ∈ S.alphabet) then
      .ok { S with
        states := (S.states.insert e.source).insert e.target
        transitions := S.transitions.add e.source e.label [e.target] }
    else .error (.label e.label)
  | .final q => .ok { S with states := S.states.insert q, finals := S.finals.insert q }
  | .initial q => .ok { S with states := S.states.insert q, initial := some q }

/-- Carries out writes one after the other. -/
def writeAll (S : StoredAutomaton) (writes : List Write) : Except Violation StoredAutomaton :=
  writes.foldlM write S

/-- A new automaton made by the given writes. -/
def make (alphabet : OrderedSet Char) (writes : List Write) : Except Violation StoredAutomaton := do
  (← blank alphabet).writeAll writes

/-- Whether a transition leaves every state on every symbol. -/
def isComplete (S : StoredAutomaton) : Bool :=
  S.states.toList.all fun q => S.alphabet.toList.all fun c =>
    !(S.transitions.successors q (.symbol c)).isEmpty

/-- Only a deterministic complete automaton is made into a table. -/
def checkTable (S : StoredAutomaton) : Except Violation Unit :=
  if S.transitions.isDeterministic && S.isComplete then .ok () else .error .table

end StoredAutomaton

end RegularLanguages
