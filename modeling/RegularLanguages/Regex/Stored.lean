import RegularLanguages.Automaton.Writes
import RegularLanguages.Regex.Positions
import RegularLanguages.Regex.Thompson

/-!
# Automata of expressions by writes without checks

Both constructions start from a new automaton over the symbols of the expression and write their
states, transitions and ends without checks. Whether the symbols may be an alphabet is asserted
when the new automaton is made, before anything is written.
-/

namespace RegularLanguages.Regex

/-- Thompson's automaton, written piece by piece. -/
def storeThompson (r : Regex) : Except Violation StoredAutomaton :=
  let piece := r.fragment 0
  let state := State.numbered "t"
  StoredAutomaton.make r.symbols (Write.ofParts ((List.range piece.next).map state)
    (piece.edges.map fun (p, a, q) => ⟨state p, a, state q⟩) [state piece.exit]
    (some (state piece.entry)))

/-- The position automaton, written position by position. -/
def storeGlushkov (r : Regex) : Except Violation StoredAutomaton :=
  let symbolAt := r.leaves.toArray
  let found := r.positions 0
  let state := State.numbered "q"
  let into (i j : Nat) : List Edge :=
    (symbolAt[j - 1]?).toList.map fun c => ⟨state i, .symbol c, state j⟩
  StoredAutomaton.make r.symbols (Write.ofParts ((List.range (found.count + 1)).map state)
    (found.first.flatMap (into 0) ++ found.follow.flatMap fun (i, j) => into i j)
    ((if found.nullable then [0] else []) ++ found.last |>.map state) (some (state 0)))

end RegularLanguages.Regex
