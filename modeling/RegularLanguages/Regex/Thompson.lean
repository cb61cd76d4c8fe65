import RegularLanguages.Automaton.Basic
import RegularLanguages.Regex.Basic

/-!
# Thompson's construction

Every part of an expression becomes a piece of automaton with one entry and one exit; the pieces
are joined by transitions on the empty word. The states are numbered `t0, t1, …` in the order in
which a walk over the expression from left to right needs them.
-/

namespace RegularLanguages.Regex

/-- A piece of automaton: its entry and exit, its transitions and the next free number. -/
structure Fragment where
  entry : Nat
  exit : Nat
  edges : List (Nat × Label × Nat)
  next : Nat

/-- The piece of automaton for an expression, numbered from `n` on. -/
def fragment : Regex → Nat → Fragment
  | epsilon, n => ⟨n, n + 1, [(n, .epsilon, n + 1)], n + 2⟩
  | symbol c, n => ⟨n, n + 1, [(n, .symbol c, n + 1)], n + 2⟩
  | union l r, n =>
    let left := l.fragment (n + 1)
    let right := r.fragment left.next
    let exit := right.next
    ⟨n, exit,
      [(n, .epsilon, left.entry), (left.exit, .epsilon, exit),
        (n, .epsilon, right.entry), (right.exit, .epsilon, exit)] ++ left.edges ++ right.edges,
      exit + 1⟩
  | concat l r, n =>
    let left := l.fragment n
    let right := r.fragment left.next
    ⟨left.entry, right.exit, (left.exit, .epsilon, right.entry) :: left.edges ++ right.edges,
      right.next⟩
  | star r, n =>
    let body := r.fragment (n + 1)
    let exit := body.next
    ⟨n, exit,
      [(n, .epsilon, body.entry), (n, .epsilon, exit),
        (body.exit, .epsilon, body.entry), (body.exit, .epsilon, exit)] ++ body.edges,
      exit + 1⟩

/-- Thompson's automaton for an expression. Its alphabet are the symbols of the expression. -/
def thompson (r : Regex) : Automaton :=
  let piece := r.fragment 0
  let state := State.numbered "t"
  { states := .ofList ((List.range piece.next).map state)
    alphabet := r.symbols
    edges := .ofList (piece.edges.map fun (p, a, q) => ⟨state p, a, state q⟩)
    initial := some (state piece.entry)
    finals := .ofList [state piece.exit] }

end RegularLanguages.Regex
