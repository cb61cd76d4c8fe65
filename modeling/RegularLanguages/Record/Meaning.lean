import RegularLanguages.Record.Basic

/-!
# What a record describes

A record fits if its texts write symbols and the states that it refers to are among those that it
lists. It then describes an automaton, which is given here by its parts (`described`), apart from
the edits that put it together one by one and check each of them.

The new initial state of a record with several initial states is one of the states by the time the
final states are looked up. So a final state may be the new one although no list has its name.

Records that describe the same automaton may still differ: a list may name something twice, in any
order, and a source or a key may be there without leading anywhere. A tidy record has none of that
(`Tidy`).
-/

namespace RegularLanguages.Record

/-- The alphabet has single characters other than `ε`, and the keys of transitions are `ε` or in
the alphabet. -/
structure SymbolsFit (R : Record) : Prop where
  alphabet : ∀ text ∈ R.alphabet, ∃ c, text = c.toString ∧ c ≠ epsilonChar
  keys : ∀ row ∈ R.transitions, ∀ entry ∈ row.2,
    ∃ c, entry.1 = c.toString ∧ (c = epsilonChar ∨ c.toString ∈ R.alphabet)

/-- The states that a record refers to besides the final states: the sources that have an entry,
the targets and the initial states. -/
def references (R : Record) : List String :=
  (R.transitions.flatMap fun row => row.2.flatMap fun entry => row.1 :: entry.2) ++ R.initial

/-- The states that a record lists. -/
def listedStates (R : Record) : OrderedSet State := .ofList (R.states.map State.mk)

/-- The new initial state that leads to several initial states. -/
def newStart (states : OrderedSet State) : State :=
  ((FreshNames.avoiding states.toList).claim ⟨"init"⟩).1

/-- The record describes an automaton. -/
structure Fits (R : Record) : Prop where
  symbols : R.SymbolsFit
  references : ∀ q ∈ R.references, q ∈ R.states
  finals : ∀ q ∈ R.finals, q ∈ R.states ∨ 1 < R.initial.length ∧ ⟨q⟩ = newStart R.listedStates

/-- The label that a key writes. -/
def labelOf (key : String) : Label :=
  match key.toList with
  | [c] => .ofChar c
  | _ => .epsilon

/-- The transitions that an entry stands for. -/
def entryEdges (source : String) (entry : String × List String) : List Edge :=
  entry.2.map fun q => ⟨⟨source⟩, labelOf entry.1, ⟨q⟩⟩

/-- The transitions that a record lists. -/
def listedEdges (R : Record) : List Edge :=
  R.transitions.flatMap fun row => row.2.flatMap (entryEdges row.1)

/-- The states, symbols and transitions that a record lists. -/
def listed (R : Record) : Automaton where
  states := R.listedStates
  alphabet := .ofList (R.alphabet.flatMap String.toList)
  edges := .ofList R.listedEdges
  initial := none
  finals := ∅

/-- The automaton with the given initial states, which a new one leads to if they are several. -/
def startingAt (A : Automaton) : List String → Automaton
  | [] => A
  | [q] => { A with initial := some ⟨q⟩ }
  | qs =>
    { A with
      states := A.states.insert (newStart A.states)
      edges := .ofList (qs.map fun q => ⟨newStart A.states, .epsilon, ⟨q⟩⟩) ∪ A.edges
      initial := some (newStart A.states) }

/-- The automaton that a record describes. -/
def described (R : Record) : Automaton :=
  { startingAt R.listed R.initial with finals := .ofList (R.finals.map State.mk) }

/-- The record lists a transition from `p` to `q` under a key. -/
def Lists (R : Record) (p key q : String) : Prop :=
  ∃ entries targets, (p, entries) ∈ R.transitions ∧ (key, targets) ∈ entries ∧ q ∈ targets

/-- Both records name the same states, symbols, transitions, initial and final states. -/
structure Agrees (R S : Record) : Prop where
  states : ∀ q, q ∈ R.states ↔ q ∈ S.states
  alphabet : ∀ text, text ∈ R.alphabet ↔ text ∈ S.alphabet
  edges : ∀ p key q, R.Lists p key q ↔ S.Lists p key q
  initial : ∀ q, q ∈ R.initial ↔ q ∈ S.initial
  finals : ∀ q, q ∈ R.finals ↔ q ∈ S.finals

/-- The keys are in increasing order, each once. -/
def IncreasingKeys {α : Type} (entries : List (String × α)) : Prop :=
  entries.Pairwise fun x y => compare x.1 y.1 = .lt

/-- Nothing is listed twice, and every source and every key leads somewhere. -/
structure Tidy (R : Record) : Prop where
  states : R.states.Nodup
  alphabet : R.alphabet.Nodup
  sources : IncreasingKeys R.transitions
  keys : ∀ row ∈ R.transitions, row.2 ≠ [] ∧ IncreasingKeys row.2
  targets : ∀ row ∈ R.transitions, ∀ entry ∈ row.2, entry.2 ≠ [] ∧ entry.2.Nodup
  initial : R.initial.Nodup
  finals : R.finals.Nodup

end RegularLanguages.Record
