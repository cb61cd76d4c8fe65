import RegularLanguages.Proofs.Automaton.Determinization

/-!
# The states of a determinized automaton are sets of states

The subset construction in terms of paths, without the search, the table of names and the fuel:
a set of states is reached if it is the closure of the initial state, or what reading a symbol
makes of a set that is reached, unless nothing is left (`ReachableSubset`). A determinized
automaton has one state for each of these sets. Whatever the states of the original automaton
are called, different sets are different states, also where the names that are suggested for
them coincide.

Results:
* `reaches_setMoves_iff`: the vertices of the search are the sets that are reached.
* `ReachableSubset.closed`, `ReachableSubset.nonempty`, `ReachableSubset.subset_states`.
* **`exists_subsetAutomaton_determinize`**: what the determinized automaton is.
-/

namespace RegularLanguages

namespace Automaton

variable {A : Automaton} {S T : OrderedSet State} {c : Char}

/-! ## Sets that are reached -/

/-- The set of the states to which the empty word leads from the initial state. -/
def Starts (A : Automaton) (S : OrderedSet State) : Prop :=
  ∀ q, q ∈ S ↔ ∃ i, A.initial = some i ∧ A.Path i [] q

/-- The set of the states to which `c` leads from a member of `S`: a transition on the symbol,
then any number of transitions on the empty word. -/
def Moves (A : Automaton) (S : OrderedSet State) (c : Char) (T : OrderedSet State) : Prop :=
  ∀ q, q ∈ T ↔ ∃ p ∈ S, ∃ p', ⟨p, .symbol c, p'⟩ ∈ A.edges ∧ A.Path p' [] q

/-- The nonempty sets that are reached by reading words from the initial state. -/
inductive ReachableSubset (A : Automaton) : OrderedSet State → Prop
  | start {S : OrderedSet State} : A.Starts S → (∃ q, q ∈ S) → ReachableSubset A S
  | move {S T : OrderedSet State} {c : Char} : ReachableSubset A S → c ∈ A.alphabet →
      A.Moves S c T → (∃ q, q ∈ T) → ReachableSubset A T

theorem starts_iff {i : State} (hi : A.initial = some i) :
    A.Starts S ↔ S = A.adjacency.closure [i] := by
  have hclosure (q : State) :
      q ∈ A.adjacency.closure [i] ↔ ∃ j, A.initial = some j ∧ A.Path j [] q := by
    rw [mem_closure_iff, hi]
    simp
  constructor
  · intro h
    exact OrderedSet.ext_mem fun q => (h q).trans (hclosure q).symm
  · rintro rfl
    exact hclosure

theorem moves_iff : A.Moves S c T ↔ T = A.adjacency.closure (A.adjacency.step S c) := by
  constructor
  · intro h
    exact OrderedSet.ext_mem fun q => (h q).trans mem_closure_step_iff.symm
  · rintro rfl q
    exact mem_closure_step_iff

/-- **The search finds the sets that are reached** and no others. -/
theorem reaches_setMoves_iff {i : State} (hi : A.initial = some i) :
    Search.Reaches A.setMoves [A.adjacency.closure [i]] S ↔ A.ReachableSubset S := by
  constructor
  · intro h
    induction h with
    | root h =>
      rw [List.mem_singleton.mp h]
      refine .start ((starts_iff hi).mpr rfl) ⟨i, ?_⟩
      exact mem_closure_iff.mpr ⟨i, List.mem_cons_self, .refl i⟩
    | step _ h ih =>
      obtain ⟨hc, hT, hne⟩ := mem_setMoves.mp h
      exact .move ih hc (moves_iff.mpr hT) hne
  · intro h
    induction h with
    | start h _ => exact .root (List.mem_singleton.mpr ((starts_iff hi).mp h))
    | move _ hc hT hne ih => exact ih.step (mem_setMoves.mpr ⟨hc, moves_iff.mp hT, hne⟩)

theorem ReachableSubset.nonempty (h : A.ReachableSubset S) : ∃ q, q ∈ S := by
  cases h with
  | start _ hne => exact hne
  | move _ _ _ hne => exact hne

theorem ReachableSubset.closed (h : A.ReachableSubset S) : A.Closed S := by
  intro q hq p hp
  cases h with
  | start h _ =>
    obtain ⟨i, hi, hiq⟩ := (h q).mp hq
    exact (h p).mpr ⟨i, hi, hiq.append hp⟩
  | move _ _ h _ =>
    obtain ⟨r, hr, r', he, hq'⟩ := (h q).mp hq
    exact (h p).mpr ⟨r, hr, r', he, hq'.append hp⟩

theorem ReachableSubset.subset_states (hA : A.Valid) (h : A.ReachableSubset S) :
    ∀ q ∈ S, q ∈ A.states := by
  intro q hq
  cases h with
  | start h _ =>
    obtain ⟨i, hi, hiq⟩ := (h q).mp hq
    exact path_target_mem hA hiq (hA.initial_mem i hi)
  | move _ _ h _ =>
    obtain ⟨r, _, r', he, hq'⟩ := (h q).mp hq
    exact path_target_mem hA hq' (hA.target_mem _ he)

/-! ## The automaton of these sets -/

/-- A deterministic automaton whose states are the sets of states of `A` that are reached, each
under a name of its own. -/
structure SubsetAutomaton (D A : Automaton) (name : OrderedSet State → State) : Prop where
  valid : D.Valid
  isDeterministic : D.isDeterministic = true
  hasEpsilon : D.hasEpsilon = false
  alphabet : D.alphabet = A.alphabet
  accepts : ∀ w, D.accepts w = A.accepts w
  /-- The sets that are reached are nonempty closed sets of states. -/
  subsets : ∀ S, A.ReachableSubset S →
    (∃ q, q ∈ S) ∧ A.Closed S ∧ ∀ q ∈ S, q ∈ A.states
  mem_states : ∀ q, q ∈ D.states ↔ ∃ S, A.ReachableSubset S ∧ name S = q
  injective : ∀ S T, A.ReachableSubset S → A.ReachableSubset T → name S = name T → S = T
  initial : ∃ S, A.Starts S ∧ D.initial = some (name S)
  accessible : ∀ q ∈ D.states, D.Accessible q
  mem_finals : ∀ S, A.ReachableSubset S → (name S ∈ D.finals ↔ ∃ q ∈ S, q ∈ A.finals)
  /-- A transition leads to the next set, and is missing if that is empty. -/
  transitions : ∀ S, A.ReachableSubset S → ∀ c ∈ A.alphabet, ∃ T, A.Moves S c T ∧
    ∀ q, ⟨name S, .symbol c, q⟩ ∈ D.edges ↔ (∃ p, p ∈ T) ∧ q = name T

/-- **The subset construction**: the determinized automaton of an automaton with an initial
state accepts the same words, and its states are the sets of states that are reached. -/
theorem exists_subsetAutomaton_determinize (hA : A.Valid) (hi : A.initial.isSome = true) :
    ∃ name, A.determinize.SubsetAutomaton A name := by
  obtain ⟨i, hi⟩ := Option.isSome_iff_exists.mp hi
  obtain ⟨name, h⟩ := determinize_depicts hA hi
  have hreach {S : OrderedSet State} := reaches_setMoves_iff hi (S := S)
  refine ⟨name, ?_⟩
  constructor
  case valid => exact determinize_valid hA
  case isDeterministic => exact isDeterministic_iff.mpr (determinize_deterministic hA)
  case hasEpsilon => exact hasEpsilon_eq_false_iff.mpr (determinize_deterministic hA).not_epsilon
  case alphabet => exact alphabet_determinize A
  case accepts => exact fun w => accepts_eq_iff.mpr (determinize_language hA w)
  case subsets => exact fun S hS => ⟨hS.nonempty, hS.closed, hS.subset_states hA⟩
  case mem_states =>
    intro q
    rw [h.mem_states]
    exact exists_congr fun S => and_congr_left fun _ => hreach
  case injective => exact fun S T hS hT => h.injective S T (hreach.mpr hS) (hreach.mpr hT)
  case initial => exact ⟨_, (starts_iff hi).mpr rfl, h.initial⟩
  case accessible => exact fun q hq => determinize_accessible hA hq
  case mem_finals =>
    intro S hS
    rw [h.mem_finals_name (hreach.mpr hS), List.any_eq_true]
    simp only [OrderedSet.mem_toList, isFinal, decide_eq_true_eq]
  case transitions =>
    intro S hS c hc
    refine ⟨_, moves_iff.mpr rfl, fun q => ?_⟩
    rw [h.mem_edges_name (hreach.mpr hS)]
    constructor
    · rintro ⟨d, T, hd, hT, rfl⟩
      cases hd
      obtain ⟨_, rfl, hne⟩ := mem_setMoves.mp hT
      exact ⟨hne, rfl⟩
    · rintro ⟨hne, rfl⟩
      exact ⟨c, _, rfl, mem_setMoves.mpr ⟨hc, rfl, hne⟩, rfl⟩

/-- From `s`, an `a` leads to the state `x,y` and a `b` to the states `x` and `y`. -/
def ambiguousNames : Automaton where
  states := .ofList [⟨"s"⟩, ⟨"x"⟩, ⟨"y"⟩, ⟨"x,y"⟩]
  alphabet := .ofList ['a', 'b']
  edges := .ofList [⟨⟨"s"⟩, .symbol 'a', ⟨"x,y"⟩⟩, ⟨⟨"s"⟩, .symbol 'b', ⟨"x"⟩⟩,
    ⟨⟨"s"⟩, .symbol 'b', ⟨"y"⟩⟩]
  initial := some ⟨"s"⟩
  finals := ∅

/-- In this automaton, a symbol leads from `s` to the targets of its transitions. -/
theorem moves_ambiguousNames {targets : List State}
    (h : ∀ q, ⟨⟨"s"⟩, .symbol c, q⟩ ∈ ambiguousNames.edges ↔ q ∈ targets) :
    ambiguousNames.Moves (.ofList [⟨"s"⟩]) c (.ofList targets) := by
  have hε : ∀ p q, ⟨p, .epsilon, q⟩ ∉ ambiguousNames.edges :=
    hasEpsilon_eq_false_iff.mp (by decide)
  intro q
  rw [OrderedSet.mem_ofList, ← h]
  constructor
  · intro hq
    exact ⟨⟨"s"⟩, by decide, q, hq, .refl q⟩
  · rintro ⟨p, hp, p', he, hq⟩
    obtain rfl : p = ⟨"s"⟩ := by simpa using hp
    exact eq_of_path_nil hε hq ▸ he

/-- The set of `x,y` alone and the set of `x` and `y` are suggested one name, and are different
states of the determinized automaton. -/
theorem name_ne_name_of_ambiguousNames :
    State.ofSubset [⟨"x,y"⟩] = State.ofSubset [⟨"x"⟩, ⟨"y"⟩] ∧
      ∃ name : OrderedSet State → State,
        name (.ofList [⟨"x,y"⟩]) ∈ ambiguousNames.determinize.states ∧
        name (.ofList [⟨"x"⟩, ⟨"y"⟩]) ∈ ambiguousNames.determinize.states ∧
        name (.ofList [⟨"x,y"⟩]) ≠ name (.ofList [⟨"x"⟩, ⟨"y"⟩]) := by
  obtain ⟨name, h⟩ := exists_subsetAutomaton_determinize (A := ambiguousNames) (by decide) rfl
  have hstart : ambiguousNames.ReachableSubset (.ofList [⟨"s"⟩]) := by
    refine .start (fun q => ?_) ⟨⟨"s"⟩, by decide⟩
    constructor
    · intro hq
      obtain rfl : q = ⟨"s"⟩ := by simpa using hq
      exact ⟨_, rfl, .refl _⟩
    · rintro ⟨i, hi, hq⟩
      obtain rfl := Option.some.inj hi
      rw [← eq_of_path_nil (hasEpsilon_eq_false_iff.mp (by decide)) hq]
      decide
  have hone : ambiguousNames.ReachableSubset (.ofList [⟨"x,y"⟩]) :=
    hstart.move (c := 'a') (by decide)
      (moves_ambiguousNames fun q => by simp [ambiguousNames]) ⟨⟨"x,y"⟩, by decide⟩
  have htwo : ambiguousNames.ReachableSubset (.ofList [⟨"x"⟩, ⟨"y"⟩]) :=
    hstart.move (c := 'b') (by decide)
      (moves_ambiguousNames fun q => by simp [ambiguousNames]) ⟨⟨"x"⟩, by decide⟩
  refine ⟨by decide, name, (h.mem_states _).mpr ⟨_, hone, rfl⟩,
    (h.mem_states _).mpr ⟨_, htwo, rfl⟩, fun he => ?_⟩
  exact absurd (h.injective _ _ hone htwo he) (by decide)

end Automaton

end RegularLanguages
