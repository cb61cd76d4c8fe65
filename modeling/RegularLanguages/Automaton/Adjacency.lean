import Std.Data.HashMap
import RegularLanguages.Automaton.Basic

/-!
# Transitions by source

A table of the transitions of an automaton grouped by their source. It is built once for an
operation that follows many transitions; what it holds for a state is exactly what the automaton
says (`edgesOf_ofEdges`, `edgesOf_adjacency`).
-/

namespace RegularLanguages

/-- The transitions that leave each state, and how many there are in all. -/
structure Adjacency where
  table : Std.HashMap State (List (Label × State))
  size : Nat

namespace Adjacency

/-- The transitions that leave `q`, as pairs of label and target. -/
def edgesOf (G : Adjacency) (q : State) : List (Label × State) := G.table.getD q []

/-- Adds a transition in front of those with the same source. -/
def add (e : Edge) (table : Std.HashMap State (List (Label × State))) :
    Std.HashMap State (List (Label × State)) :=
  table.insert e.source ((e.label, e.target) :: table.getD e.source [])

/-- Groups a list of transitions. -/
def ofEdges (edges : List Edge) : Adjacency := ⟨edges.foldr add ∅, edges.length⟩

theorem edgesOf_ofEdges (edges : List Edge) (q : State) :
    (ofEdges edges).edgesOf q =
      (edges.filter (·.source = q)).map fun e => (e.label, e.target) := by
  simp only [ofEdges, edgesOf]
  induction edges with
  | nil => simp
  | cons e edges ih =>
    rw [List.foldr_cons, add, Std.HashMap.getD_insert]
    by_cases h : e.source = q
    · subst h
      simp [ih]
    · simp [h, ih]

/-- The states that the transitions from `q` on `a` lead to. -/
def targets (G : Adjacency) (q : State) (a : Label) : List State :=
  (G.edgesOf q).filterMap fun (b, p) => if b = a then some p else none

end Adjacency

namespace Automaton

/-- The transitions of the automaton by source. -/
def adjacency (A : Automaton) : Adjacency := .ofEdges A.edges.toList

/-- The transitions of the automaton, all reversed, by source. -/
def reverseAdjacency (A : Automaton) : Adjacency := .ofEdges (A.edges.toList.map Edge.reverse)

@[simp] theorem edgesOf_adjacency (A : Automaton) (q : State) :
    A.adjacency.edgesOf q = A.edgesFrom q := Adjacency.edgesOf_ofEdges _ q

end Automaton

end RegularLanguages
