import RegularLanguages.Automaton.Basic
import RegularLanguages.Regex.Basic

/-!
# The position automaton

Glushkov's construction numbers the occurrences of symbols in an expression from 1, left to
right, and has one state `qi` per position besides the initial state `q0`. A word of the
expression is read by visiting positions: it starts at one of the first positions, goes from a
position to one that may follow it, and ends at one of the last positions.
-/

namespace RegularLanguages.Regex

/-- Which positions can be the first and the last of a word of an expression, which pairs of
positions can follow each other, whether there is the empty word, and the greatest position
used so far. -/
structure Positions where
  first : List Nat
  last : List Nat
  follow : List (Nat × Nat)
  nullable : Bool
  count : Nat

/-- All pairs of an entry of the first list and one of the second. -/
def pairs (is js : List Nat) : List (Nat × Nat) := is.flatMap fun i => js.map fun j => (i, j)

/-- The positions of an expression, numbered behind the first `n`. -/
def positions : Regex → Nat → Positions
  | epsilon, n => ⟨[], [], [], true, n⟩
  | symbol _, n => ⟨[n + 1], [n + 1], [], false, n + 1⟩
  | union l r, n =>
    let left := l.positions n
    let right := r.positions left.count
    ⟨left.first ++ right.first, left.last ++ right.last, left.follow ++ right.follow,
      left.nullable || right.nullable, right.count⟩
  | concat l r, n =>
    let left := l.positions n
    let right := r.positions left.count
    ⟨if left.nullable then left.first ++ right.first else left.first,
      if right.nullable then left.last ++ right.last else right.last,
      left.follow ++ right.follow ++ pairs left.last right.first,
      left.nullable && right.nullable, right.count⟩
  | star r, n =>
    let inner := r.positions n
    { inner with follow := inner.follow ++ pairs inner.last inner.first, nullable := true }

/-- The position automaton of an expression. Its alphabet are the symbols of the expression. -/
def glushkov (r : Regex) : Automaton :=
  let symbolAt := r.leaves.toArray
  let found := r.positions 0
  let state := State.numbered "q"
  let into (i j : Nat) : List Edge :=
    (symbolAt[j - 1]?).toList.map fun c => ⟨state i, .symbol c, state j⟩
  { states := .ofList ((List.range (found.count + 1)).map state)
    alphabet := r.symbols
    edges := .ofList (found.first.flatMap (into 0) ++ found.follow.flatMap fun (i, j) => into i j)
    initial := some (state 0)
    finals := .ofList ((if found.nullable then [0] else []) ++ found.last |>.map state) }

end RegularLanguages.Regex
