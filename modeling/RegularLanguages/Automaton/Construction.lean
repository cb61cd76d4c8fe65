import RegularLanguages.Automaton.Boolean
import RegularLanguages.Automaton.Canonical
import RegularLanguages.Automaton.Rational
import RegularLanguages.Automaton.Writes

/-!
# Constructions on stored automata

Each construction reads its operands and writes a new automaton, or adds to a copy, without
checks. What it reads is what the operand says as an automaton; what it writes, and in which
order, is given here, and what comes out is the automaton of the construction of the same name.

`Construction` composes them: its leaves are stored automata, and `run` carries it out, with
every assertion on the way.
-/

namespace RegularLanguages

namespace Write

variable {σ : Type} [BEq σ] [Hashable σ]

/-- The writes of a breadth first search: the first vertex becomes initial, and each vertex in the
order of discovery writes whether it is final, and its moves. The move that discovers a vertex
makes it a state, so a vertex that is discovered is not written as a state of its own. -/
def unfolding (moves : σ → List (Char × σ)) (title : σ → State) (accepting : σ → Bool)
    (fuel : Nat) (start : σ) : List Write :=
  let found := Search.explore moves fuel [start]
  let named := found.zip (FreshNames.empty.claimAll (found.map fun v => title v.1))
  let names := Std.HashMap.ofList (named.map fun v => (v.1.1, v.2))
  let nameOf v := names.getD v (title v)
  .initial (nameOf start) :: named.flatMap fun v =>
    (if accepting v.1.1 then [.final v.2] else []) ++
      v.1.2.map fun (c, w) => .link ⟨v.2, .symbol c, nameOf w⟩

/-- The writes that lead all missing transitions to a sink, and its own to itself. -/
def completing (A : Automaton) (sink : State) : List Write :=
  A.gaps.map (fun (q, c) => .link ⟨q, .symbol c, sink⟩) ++
    A.alphabet.toList.map fun c => .link ⟨sink, .symbol c, sink⟩

/-- The states and transitions of a part, without initial and final states. -/
def absorbing (part : Automaton) : List Write :=
  part.states.toList.map .state ++ part.edges.toList.map .link

/-- The writes that lead from a new initial state into the parts, and take over their final
states. -/
def uniting (start : State) (parts : List Automaton) : List Write :=
  .initial start :: parts.flatMap fun part =>
    part.initial.toList.map (fun q => .link ⟨start, .epsilon, q⟩) ++
      part.finals.toList.map .final

/-- The writes that lead from one part into the next. -/
def chaining (L R : Automaton) : List Write :=
  (R.initial.toList.flatMap fun q => L.finals.toList.map fun p => .link ⟨p, .epsilon, q⟩) ++
    L.initial.toList.map .initial ++ R.finals.toList.map .final

/-- The writes that lead past a part, into it, back to its start and out of it. -/
def repeating (A : Automaton) (start stop : State) : List Write :=
  [.initial start, .final stop, .link ⟨start, .epsilon, stop⟩] ++
    A.initial.toList.flatMap fun i =>
      .link ⟨start, .epsilon, i⟩ :: A.finals.toList.flatMap fun q =>
        [.link ⟨q, .epsilon, i⟩, .link ⟨q, .epsilon, stop⟩]

/-- The writes of the automaton with merged states: for the least member of every block its state,
whether it is final, and its moves. -/
def merging (A : Automaton) : List Write :=
  let δ := A.transitionFunction
  let blocks := A.blocks
  let leasts := Std.HashMap.ofList
    (blocks.flatMap fun block => block.map fun q => (q, block.headD q))
  let leastOf q := leasts.getD q q
  (blocks.filterMap List.head?).flatMap (fun q =>
    .state q :: (if A.isFinal q then [.final q] else []) ++
      A.alphabet.toList.map fun c => .link ⟨q, .symbol c, leastOf (δ.next q c)⟩) ++
    (A.initial.map leastOf).toList.map .initial

/-- The writes of the automaton without transitions on the empty word: for every state its state,
whether it is final, and its moves. -/
def removing (A : Automaton) : List Write :=
  let G := A.adjacency
  A.epsilonClosures.flatMap (fun (q, closed) =>
    .state q :: (if closed.toList.any A.isFinal then [.final q] else []) ++
      A.alphabet.toList.flatMap fun c =>
        (G.closure (G.step closed c)).toList.map fun p => .link ⟨q, .symbol c, p⟩) ++
    A.initial.toList.map .initial

end Write

namespace StoredAutomaton

/-- A new automaton with every state replaced by its image under `f`. -/
def rename (S : StoredAutomaton) (f : State → State) : Except Violation StoredAutomaton :=
  make S.alphabet (Write.ofParts (S.states.toList.map f)
    (S.transitions.edges.map fun e => ⟨f e.source, e.label, f e.target⟩)
    (S.finals.toList.map f) (S.initial.map f))

/-- A new automaton with the given states and what lies within them. -/
def within (S : StoredAutomaton) (kept : OrderedSet State) : Except Violation StoredAutomaton :=
  make S.alphabet (Write.ofParts kept.toList
    (S.transitions.edges.filter fun e => e.source ∈ kept && e.target ∈ kept)
    (S.finals.toList.filter (· ∈ kept)) (S.initial.filter (· ∈ kept)))

/-- A new automaton with a single state, which is not final and leads to itself. -/
def rejecting (alphabet : OrderedSet Char) (q : State) : Except Violation StoredAutomaton :=
  make alphabet ([.state q, .initial q] ++
    alphabet.toList.map fun c => .link ⟨q, .symbol c, q⟩)

/-- The subset construction. -/
def determinize (S : StoredAutomaton) : Except Violation StoredAutomaton := do
  let A := S.toAutomaton
  let out ← blank S.alphabet
  match S.initial with
  | none => return out
  | some q =>
    out.writeAll (Write.unfolding (A.adjacency.subsetMoves A.alphabet) (fun T => .ofSubset T.toList)
      (fun T => T.toList.any A.isFinal) (Nat.pow 2 A.size) (A.adjacency.closure [q]))

/-- Leads all missing transitions to a sink, unless there are none. -/
def withSink (S : StoredAutomaton) : Except Violation StoredAutomaton :=
  if S.toAutomaton.gaps.isEmpty then .ok S
  else
    S.writeAll (Write.completing S.toAutomaton
      ((FreshNames.avoiding S.states.toList).claim ⟨"sink"⟩).1)

/-- Completion: a nondeterministic automaton is determinized first. -/
def complete (S : StoredAutomaton) : Except Violation StoredAutomaton := do
  let out ← if S.transitions.isDeterministic then pure S else S.determinize
  out.withSink

/-- A new automaton with the useful states only. -/
def prune (S : StoredAutomaton) : Except Violation StoredAutomaton :=
  S.within S.toAutomaton.useful

/-- A new automaton with the accessible states only. -/
def withoutUnreachable (S : StoredAutomaton) : Except Violation StoredAutomaton :=
  S.within S.toAutomaton.accessible

/-- Merges the states of a complete deterministic automaton. -/
def merged (S : StoredAutomaton) : Except Violation StoredAutomaton := do
  S.checkTable
  make S.alphabet (Write.merging S.toAutomaton)

/-- Minimization: what is not deterministic is determinized, and unreachable states are left out,
before states are merged. -/
def minimize (S : StoredAutomaton) : Except Violation StoredAutomaton := do
  let D ← if S.transitions.isDeterministic then S.withoutUnreachable else S.determinize
  if D.initial.isNone then rejecting S.alphabet ⟨"q0"⟩
  else (← D.complete).merged

/-- Numbers the states in the order of their discovery. -/
def numberedByDiscovery (S : StoredAutomaton) : Except Violation StoredAutomaton :=
  let G := S.toAutomaton.adjacency
  let found := Search.reachable G.edgesOf (G.size + 1) S.initial.toList
  let names := Std.HashMap.ofList (found.zipIdx.map fun (q, i) => (q, State.numbered "q" i))
  S.rename fun q => names.getD q q

/-- The canonical automaton: the minimal one with its states numbered. -/
def canonicalize (S : StoredAutomaton) : Except Violation StoredAutomaton := do
  let D ← S.determinize
  let D ← D.complete
  let D ← D.prune
  let D ← D.minimize
  D.numberedByDiscovery

/-- A new automaton whose transitions skip those on the empty word. -/
def removeEpsilon (S : StoredAutomaton) : Except Violation StoredAutomaton :=
  make S.alphabet (Write.removing S.toAutomaton)

/-- A new automaton with every transition split by states of its own. -/
def addEpsilon (S : StoredAutomaton) : Except Violation StoredAutomaton :=
  make S.alphabet (Write.ofParts S.states.toList
    (Automaton.subdivide (.avoiding S.states.toList) S.transitions.edges) S.finals.toList S.initial)

/-- The automaton that starts in either operand. -/
def union (S T : StoredAutomaton) : Except Violation StoredAutomaton := do
  let L := (← S.rename (State.tagged "1_")).toAutomaton
  let R := (← T.rename (State.tagged "2_")).toAutomaton
  let out ← make (S.alphabet ∪ T.alphabet) (Write.absorbing L ++ Write.absorbing R)
  let start := ((FreshNames.avoiding out.states.toList).claim ⟨"init"⟩).1
  out.writeAll (Write.uniting start [L, R])

/-- The automaton that goes on to the second operand from the final states of the first. -/
def concatenate (S T : StoredAutomaton) : Except Violation StoredAutomaton := do
  let L := (← S.rename (State.tagged "1_")).toAutomaton
  let R := (← T.rename (State.tagged "2_")).toAutomaton
  let out ← make (S.alphabet ∪ T.alphabet) (Write.absorbing L ++ Write.absorbing R)
  out.writeAll (Write.chaining L R)

/-- The automaton that passes through the operand any number of times. -/
def star (S : StoredAutomaton) : Except Violation StoredAutomaton :=
  let A := S.toAutomaton
  let (start, names) := (FreshNames.avoiding A.states.toList).claim ⟨"init"⟩
  let (stop, _) := names.claim ⟨"final"⟩
  make A.alphabet (Write.absorbing A ++ Write.repeating A start stop)

/-- The automaton with further symbols in its alphabet, `ε` excepted. -/
def extended (S : StoredAutomaton) (symbols : OrderedSet Char) : StoredAutomaton :=
  { S with alphabet := S.alphabet ∪ symbols.filter (· ≠ epsilonChar) }

/-- Makes a final state not final, and any other one final. -/
def swapFinal (S : StoredAutomaton) (q : State) : StoredAutomaton :=
  if q ∈ S.finals then { S with finals := S.finals.erase q }
  else { S with states := S.states.insert q, finals := S.finals.insert q }

/-- The completed automaton over further symbols, with the final states exchanged for the others. -/
def complementOver (S : StoredAutomaton) (symbols : OrderedSet Char) :
    Except Violation StoredAutomaton := do
  let E := S.extended symbols
  let D ← if E.initial.isSome then E.complete else rejecting E.alphabet ⟨"q0"⟩
  return D.states.toList.foldl swapFinal D

/-- The complement over the alphabet of the automaton. -/
def complement (S : StoredAutomaton) : Except Violation StoredAutomaton :=
  S.complementOver S.alphabet

/-- The product of the operands without their transitions on the empty word. -/
def intersection (S T : StoredAutomaton) : Except Violation StoredAutomaton := do
  let alphabet := S.alphabet ∩ T.alphabet
  let out ← blank alphabet
  let L := (← S.removeEpsilon).toAutomaton
  let R := (← T.removeEpsilon).toAutomaton
  match L.initial, R.initial with
  | some p, some q =>
    out.writeAll (Write.unfolding (Automaton.pairMoves L.adjacency R.adjacency alphabet)
      (fun v => .ofPair v.1 v.2) (fun v => L.isFinal v.1 && R.isFinal v.2) (L.size * R.size) (p, q))
  | _, _ => return out

/-- The product of the first operand and the complement of the second one. -/
def difference (S T : StoredAutomaton) : Except Violation StoredAutomaton := do
  S.intersection (← T.complementOver (S.alphabet ∪ T.alphabet))

end StoredAutomaton

/-- The constructions with one operand. -/
inductive Unary
  | determinize
  | complete
  | prune
  | withoutUnreachable
  | minimize
  | canonicalize
  | removeEpsilon
  | addEpsilon
  | star
  | complement
  | complementOver (symbols : OrderedSet Char)

namespace Unary

/-- The automaton of the construction. -/
def apply (A : Automaton) : Unary → Automaton
  | determinize => A.determinize
  | complete => A.complete
  | prune => A.prune
  | withoutUnreachable => A.withoutUnreachable
  | minimize => A.minimize
  | canonicalize => A.canonicalize
  | removeEpsilon => A.removeEpsilon
  | addEpsilon => A.addEpsilon
  | star => A.star
  | complement => A.complement
  | complementOver symbols => A.complementOver symbols

/-- The construction on a stored automaton. -/
def run (S : StoredAutomaton) : Unary → Except Violation StoredAutomaton
  | determinize => S.determinize
  | complete => S.complete
  | prune => S.prune
  | withoutUnreachable => S.withoutUnreachable
  | minimize => S.minimize
  | canonicalize => S.canonicalize
  | removeEpsilon => S.removeEpsilon
  | addEpsilon => S.addEpsilon
  | star => S.star
  | complement => S.complement
  | complementOver symbols => S.complementOver symbols

/-- The alphabet that the construction promises. -/
def alphabet (Γ : OrderedSet Char) : Unary → OrderedSet Char
  | complementOver symbols => Γ ∪ symbols.filter (· ≠ epsilonChar)
  | _ => Γ

end Unary

/-- The constructions with two operands. -/
inductive Binary
  | union
  | concatenate
  | intersection
  | difference

namespace Binary

/-- The automaton of the construction. -/
def apply (A B : Automaton) : Binary → Automaton
  | union => A.union B
  | concatenate => A.concatenate B
  | intersection => A.intersection B
  | difference => A.difference B

/-- The construction on stored automata. -/
def run (S T : StoredAutomaton) : Binary → Except Violation StoredAutomaton
  | union => S.union T
  | concatenate => S.concatenate T
  | intersection => S.intersection T
  | difference => S.difference T

/-- The alphabet that the construction promises. -/
def alphabet (Γ Δ : OrderedSet Char) : Binary → OrderedSet Char
  | union => Γ ∪ Δ
  | concatenate => Γ ∪ Δ
  | intersection => Γ ∩ Δ
  | difference => Γ

end Binary

/-- A composition of constructions. -/
inductive Construction
  | given (S : StoredAutomaton)
  | unary (f : Unary) (X : Construction)
  | binary (f : Binary) (X Y : Construction)

namespace Construction

/-- The automaton that is constructed. -/
def eval : Construction → Automaton
  | given S => S.toAutomaton
  | unary f X => f.apply X.eval
  | binary f X Y => f.apply X.eval Y.eval

/-- Carries out the constructions, the operands first. -/
def run : Construction → Except Violation StoredAutomaton
  | given S => .ok S
  | unary f X => do f.run (← X.run)
  | binary f X Y => do f.run (← X.run) (← Y.run)

/-- The alphabet that the composition promises. -/
def alphabet : Construction → OrderedSet Char
  | given S => S.alphabet
  | unary f X => f.alphabet X.alphabet
  | binary f X Y => f.alphabet X.alphabet Y.alphabet

end Construction

end RegularLanguages
