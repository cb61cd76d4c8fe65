import Std.Data.ExtTreeMap
import RegularLanguages.Automaton.Basic

/-!
# Transitions in two levels

The transitions of an automaton are stored by their source and then by their label, each entry
with the set of its targets. A source from which no transition starts has no entry, and neither
has a label without targets (`Normal`), so one set of transitions is stored in one way only.
-/

namespace RegularLanguages

/-- The transitions that leave one state: the targets by label. -/
abbrev Row := Std.ExtTreeMap Label (OrderedSet State)

/-- Transitions by source and then by label. -/
structure TransitionMap where
  rows : Std.ExtTreeMap State Row
deriving DecidableEq

namespace TransitionMap

/-- The map without transitions. -/
def empty : TransitionMap := ⟨∅⟩

/-- The states that the transitions from `q` on `a` lead to. -/
def successors (M : TransitionMap) (q : State) (a : Label) : OrderedSet State :=
  (M.rows[q]?.bind (·[a]?)).getD ∅

/-- The transitions of a row as pairs of label and target, in order. -/
def rowEdges (row : Row) : List (Label × State) :=
  row.toList.flatMap fun (a, targets) => targets.toList.map fun q => (a, q)

/-- All transitions, in order. -/
def edges (M : TransitionMap) : List Edge :=
  M.rows.toList.flatMap fun (p, row) => (rowEdges row).map fun (a, q) => ⟨p, a, q⟩

/-- Adds transitions from one state on one label. -/
def add (M : TransitionMap) (p : State) (a : Label) (targets : List State) : TransitionMap :=
  ⟨M.rows.alter p fun row =>
    some ((row.getD ∅).alter a fun old => some (.ofList targets ∪ old.getD ∅))⟩

/-- The row without the transitions that end in a state. -/
def rowWithout (row : Row) (q : State) : Row :=
  (row.map fun _ targets => targets.erase q).filter fun _ targets => !targets.isEmpty

/-- Removes the transitions that start or end in a state. -/
def removeState (M : TransitionMap) (q : State) : TransitionMap :=
  let rows := (M.rows.erase q).map fun _ row => rowWithout row q
  ⟨rows.filter fun _ row => !row.isEmpty⟩

/-- Removes the transitions from one state on one label, and tells their targets. -/
def removeLabel (M : TransitionMap) (p : State) (a : Label) :
    Option (OrderedSet State) × TransitionMap :=
  match M.rows[p]? with
  | none => (none, M)
  | some row =>
    let rest := row.erase a
    (row[a]?, ⟨if rest.isEmpty then M.rows.erase p else M.rows.insert p rest⟩)

/-- Whether some transition is on the empty word. -/
def hasEpsilon (M : TransitionMap) : Bool :=
  M.rows.toList.any fun (_, row) => row.contains .epsilon

/-- Whether no transition is on the empty word and no two transitions leave a state on one
symbol. -/
def isDeterministic (M : TransitionMap) : Bool :=
  M.rows.toList.all fun (_, row) =>
    row.toList.all fun (a, targets) => a ≠ .epsilon && decide (targets.size ≤ 1)

/-- No source without transitions and no label without targets has an entry. -/
structure Normal (M : TransitionMap) : Prop where
  row_nonempty : ∀ (p : State) (row : Row), M.rows[p]? = some row → row.isEmpty = false
  targets_nonempty : ∀ (p : State) (row : Row) (a : Label) (targets : OrderedSet State),
    M.rows[p]? = some row → row[a]? = some targets → targets.isEmpty = false

end TransitionMap

end RegularLanguages
