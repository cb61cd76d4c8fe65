import RegularLanguages.Automaton.Basic
import RegularLanguages.FreshNames

/-!
# Union, concatenation and repetition

The rational operations join automata by transitions on the empty word. The states of the two
operands of a binary operation are kept apart by the tags `1_` and `2_`.
-/

namespace RegularLanguages.Automaton

/-- The left operand of a binary operation, its states tagged `1_`. -/
def asLeft (A : Automaton) : Automaton := A.rename (State.tagged "1_")

/-- The right operand of a binary operation, its states tagged `2_`. -/
def asRight (A : Automaton) : Automaton := A.rename (State.tagged "2_")

/-- Transitions on the empty word from every source to every target. -/
def bridges (sources targets : List State) : OrderedSet Edge :=
  .ofList (sources.flatMap fun p => targets.map fun q => ⟨p, .epsilon, q⟩)

/-- Accepts the words that either automaton accepts: a new initial state leads to both initial
states. -/
def union (A B : Automaton) : Automaton :=
  let L := A.asLeft
  let R := B.asRight
  let states := L.states ∪ R.states
  let start := ((FreshNames.avoiding states.toList).claim ⟨"init"⟩).1
  { states := states.insert start
    alphabet := A.alphabet ∪ B.alphabet
    edges := bridges [start] (L.initial.toList ++ R.initial.toList) ∪ (L.edges ∪ R.edges)
    initial := some start
    finals := L.finals ∪ R.finals }

/-- Accepts the words that split into a word of the first automaton and one of the second: every
final state of the first leads to the initial state of the second. -/
def concatenate (A B : Automaton) : Automaton :=
  let L := A.asLeft
  let R := B.asRight
  { states := L.states ∪ R.states
    alphabet := A.alphabet ∪ B.alphabet
    edges := bridges L.finals.toList R.initial.toList ∪ (L.edges ∪ R.edges)
    initial := L.initial
    finals := R.finals }

/-- Accepts the concatenations of any number of accepted words. A new initial state leads to the
old one and to a new final state; the old final states lead to both of these as well. -/
def star (A : Automaton) : Automaton :=
  let (start, names) := (FreshNames.avoiding A.states.toList).claim ⟨"init"⟩
  let (stop, _) := names.claim ⟨"final"⟩
  let joins :=
    match A.initial with
    | none => bridges [start] [stop]
    | some q => bridges (start :: A.finals.toList) [stop, q]
  { states := (A.states.insert start).insert stop
    alphabet := A.alphabet
    edges := joins ∪ A.edges
    initial := some start
    finals := .ofList [stop] }

end RegularLanguages.Automaton
