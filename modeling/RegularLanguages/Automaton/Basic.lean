import RegularLanguages.Label

/-!
# Finite automata

A nondeterministic finite automaton with optional transitions on the empty word and at most one
initial state. States, symbols, transitions and final states are ordered sets, so equality of
automata is equality of these five components.

`Automaton.Valid` says what every automaton that is put together through checked edits promises:
the initial state, the final states and the ends of all transitions are states, every label is
the empty word or a symbol of the alphabet, and `ε` is not a symbol.
-/

namespace RegularLanguages

/-- A transition. -/
structure Edge where
  source : State
  label : Label
  target : State
deriving DecidableEq, Hashable, Inhabited

namespace Edge

/-- The order of transitions: by source, then by label, then by target. -/
def order : Edge → Edge → Ordering :=
  compareLex (compareOn source) (compareLex (compareOn label) (compareOn target))

instance : Ord Edge := ⟨order⟩

instance : Std.TransOrd Edge :=
  inferInstanceAs (Std.TransCmp
    (compareLex (compareOn source) (compareLex (compareOn label) (compareOn target))))

instance : Std.LawfulEqOrd Edge where
  compare_self := Std.ReflCmp.compare_self
  eq_of_compare {e f} h := by
    cases e; cases f
    obtain ⟨hs, h⟩ := compareLex_eq_eq.mp h
    obtain ⟨hl, ht⟩ := compareLex_eq_eq.mp h
    simp only [Edge.mk.injEq]
    exact ⟨Std.LawfulEqCmp.eq_of_compare hs, Std.LawfulEqCmp.eq_of_compare hl,
      Std.LawfulEqCmp.eq_of_compare ht⟩

/-- The transition in the opposite direction. -/
def reverse (e : Edge) : Edge := ⟨e.target, e.label, e.source⟩

/-- The transition as shown to a reader: `(p, a, q)`. -/
def toText (e : Edge) : String :=
  "(" ++ e.source.name ++ ", " ++ e.label.toText ++ ", " ++ e.target.name ++ ")"

end Edge

/-- A nondeterministic finite automaton. -/
structure Automaton where
  states : OrderedSet State
  alphabet : OrderedSet Char
  edges : OrderedSet Edge
  initial : Option State
  finals : OrderedSet State
deriving DecidableEq, Inhabited

/-- Automata with the same states, symbols, transitions, initial and final states are equal. -/
theorem Automaton.ext_mem {A B : Automaton} (hstates : ∀ q, q ∈ A.states ↔ q ∈ B.states)
    (halphabet : A.alphabet = B.alphabet) (hedges : ∀ e, e ∈ A.edges ↔ e ∈ B.edges)
    (hinitial : A.initial = B.initial) (hfinals : ∀ q, q ∈ A.finals ↔ q ∈ B.finals) : A = B := by
  have hstates := OrderedSet.ext_mem hstates
  have hedges := OrderedSet.ext_mem hedges
  have hfinals := OrderedSet.ext_mem hfinals
  cases A
  cases B
  cases hstates; cases halphabet; cases hedges; cases hinitial; cases hfinals
  rfl

/-- Why an operation on an automaton is refused. -/
inductive AutomatonError
  /-- A state is mentioned that is not a state of the automaton. -/
  | unknownState (state : State)
  /-- A text stands for a symbol without being the empty word or a symbol of the alphabet. -/
  | unknownSymbol (text : String)
  /-- No initial state is designated. -/
  | noInitialState
deriving DecidableEq

/-- The wording of a refusal. -/
def AutomatonError.message : AutomatonError → String
  | unknownState q => "state `" ++ q.name ++ "` does not belong to the automaton"
  | unknownSymbol s => "symbol `" ++ s ++ "` is neither epsilon nor part of the alphabet"
  | noInitialState => "the automaton has no initial state"

namespace Automaton

/-- What automata put together through checked edits promise. -/
structure Valid (A : Automaton) : Prop where
  initial_mem : ∀ q, A.initial = some q → q ∈ A.states
  final_mem : ∀ q, q ∈ A.finals → q ∈ A.states
  source_mem : ∀ e, e ∈ A.edges → e.source ∈ A.states
  target_mem : ∀ e, e ∈ A.edges → e.target ∈ A.states
  label_mem : ∀ e, e ∈ A.edges → ∀ c, e.label = .symbol c → c ∈ A.alphabet
  epsilon_not_mem : epsilonChar ∉ A.alphabet

/-- The automaton over an alphabet that has no states. -/
def void (alphabet : OrderedSet Char) : Automaton := ⟨∅, alphabet, ∅, none, ∅⟩

/-- The automaton without states over the given symbols, which must not contain `ε`. -/
def ofSymbols (symbols : List Char) : Except AutomatonError Automaton :=
  if epsilonChar ∈ symbols then .error (.unknownSymbol epsilonChar.toString)
  else .ok (void (.ofList symbols))

/-- The complete deterministic automaton with a single state, which is not final. -/
def rejecting (alphabet : OrderedSet Char) (q : State) : Automaton where
  states := .ofList [q]
  alphabet := alphabet
  edges := .ofList (alphabet.toList.map fun c => ⟨q, .symbol c, q⟩)
  initial := some q
  finals := ∅

/-- The number of states. -/
def size (A : Automaton) : Nat := A.states.size

/-- Whether `q` is a final state. -/
def isFinal (A : Automaton) (q : State) : Bool := q ∈ A.finals

/-- The transitions that leave `q`, as pairs of label and target in order. -/
def edgesFrom (A : Automaton) (q : State) : List (Label × State) :=
  (A.edges.toList.filter (·.source = q)).map fun e => (e.label, e.target)

/-- The states that a transition from `q` on `a` leads to. -/
def successors (A : Automaton) (q : State) (a : Label) : OrderedSet State :=
  .ofList ((A.edges.toList.filter fun e => e.source = q ∧ e.label = a).map (·.target))

theorem mem_edgesFrom {A : Automaton} {q : State} {a : Label} {p : State} :
    (a, p) ∈ A.edgesFrom q ↔ ⟨q, a, p⟩ ∈ A.edges := by
  simp only [edgesFrom, List.mem_map, List.mem_filter, decide_eq_true_eq, Prod.mk.injEq,
    OrderedSet.mem_toList]
  exact ⟨fun ⟨e, ⟨he, hs⟩, hl, ht⟩ => by subst hs hl ht; exact he, fun h => ⟨_, ⟨h, rfl⟩, rfl, rfl⟩⟩

@[simp] theorem mem_successors {A : Automaton} {q : State} {a : Label} {p : State} :
    p ∈ A.successors q a ↔ ⟨q, a, p⟩ ∈ A.edges := by
  simp only [successors, OrderedSet.mem_ofList, List.mem_map, List.mem_filter, decide_eq_true_eq,
    OrderedSet.mem_toList]
  exact ⟨fun ⟨e, ⟨he, hs, hl⟩, ht⟩ => by subst hs hl ht; exact he, fun h => ⟨_, ⟨h, rfl, rfl⟩, rfl⟩⟩

/-- The state that the transitions from `q` on the symbol `c` lead to, if there is exactly
one. -/
def successor? (A : Automaton) (q : State) (c : Char) : Option State :=
  match (A.successors q (.symbol c)).toList with
  | [p] => some p
  | _ => none

/-- Whether some transition is on the empty word. -/
def hasEpsilon (A : Automaton) : Bool := A.edges.toList.any (·.label = .epsilon)

/-- Whether no transition is on the empty word and no two transitions leave a state on one
symbol. -/
def isDeterministic (A : Automaton) : Bool :=
  !A.hasEpsilon && A.edges.toList.all fun e => A.edges.toList.all fun f =>
    !(decide (e.source = f.source) && decide (e.label = f.label)) || e.target = f.target

/-- Whether a transition leaves `q` on the symbol `c`. -/
def hasMove (A : Automaton) (q : State) (c : Char) : Bool :=
  A.edges.toList.any fun e => e.source = q ∧ e.label = .symbol c

/-- Whether a transition leaves every state on every symbol. -/
def isComplete (A : Automaton) : Bool :=
  A.states.toList.all fun q => A.alphabet.toList.all fun c => A.hasMove q c

/-- The automaton with every state replaced by its image under `f`. -/
def rename (A : Automaton) (f : State → State) : Automaton where
  states := A.states.map f
  alphabet := A.alphabet
  edges := A.edges.map fun e => ⟨f e.source, e.label, f e.target⟩
  initial := A.initial.map f
  finals := A.finals.map f

/-- The automaton with further symbols in its alphabet, `ε` excepted. -/
def extended (A : Automaton) (symbols : OrderedSet Char) : Automaton :=
  { A with alphabet := A.alphabet ∪ symbols.filter (· ≠ epsilonChar) }

/-- The part of the automaton that lies within the states satisfying `keep`. -/
def restrict (A : Automaton) (keep : State → Bool) : Automaton where
  states := A.states.filter keep
  alphabet := A.alphabet
  edges := A.edges.filter fun e => keep e.source && keep e.target
  initial := A.initial.filter keep
  finals := A.finals.filter keep

end Automaton

end RegularLanguages
