import RegularLanguages.Proofs.Automaton.Reachability

/-!
# Pruning

A state is worth keeping if it lies on some path from the initial state to a final state. The other
states of this path lie on it as well, so no path that justifies a state is cut when the useless
states are removed: what is left is useful in what is left, and there is nothing more to remove.

Results:
* `mem_useful_iff_onAcceptingPath`: the useful states are those on such paths.
* **`onAcceptingPath_prune_iff`**: no state loses its last path.
* `isPruned_iff`, `isEmptyLanguage_iff`: what the two checks decide.
* `isUsefulPart_prune`: which states and transitions are left.
* **`useful_and_prune_and_isEmptyLanguage`**: the same together, and that nothing is left iff no
  word is accepted.
-/

namespace RegularLanguages

namespace Automaton

variable {A : Automaton} {q : State}

/-- Some path from the initial state to a final state goes through the state. -/
def OnAcceptingPath (A : Automaton) (q : State) : Prop :=
  ∃ i u v f, A.initial = some i ∧ A.Path i u q ∧ A.Path q v f ∧ f ∈ A.finals

theorem mem_useful_iff_onAcceptingPath : q ∈ A.useful ↔ A.OnAcceptingPath q := by
  rw [mem_useful]
  constructor
  · rintro ⟨⟨i, u, hi, hu⟩, v, f, hf, hv⟩
    exact ⟨i, u, v, f, hi, hu, hv, hf⟩
  · rintro ⟨i, u, v, f, hi, hu, hv, hf⟩
    exact ⟨⟨i, u, hi, hu⟩, v, f, hf, hv⟩

/-- **Pruning cuts no path that justifies a state.** -/
theorem onAcceptingPath_prune_iff : A.prune.OnAcceptingPath q ↔ A.OnAcceptingPath q := by
  constructor
  · rintro ⟨i, u, v, f, hi, hu, hv, hf⟩
    exact ⟨i, u, v, f, (initial_within_eq_some.mp hi).1, path_of_within hu, path_of_within hv,
      (mem_finals_within.mp hf).1⟩
  · rintro ⟨i, u, v, f, hi, hu, hv, hf⟩
    have huseful {r : State} {u v : Word} (hu : A.Path i u r) (hv : A.Path r v f) :
        r ∈ A.useful := mem_useful_iff_onAcceptingPath.mpr ⟨i, u, v, f, hi, hu, hv, hf⟩
    refine ⟨i, u, v, f, initial_within_eq_some.mpr ⟨hi, huseful (.refl i) (hu.append hv)⟩,
      path_within hu ?before, path_within hv ?after,
      mem_finals_within.mpr ⟨hf, huseful (hu.append hv) (.refl f)⟩⟩
    case before =>
      rintro r ⟨_, hr⟩ ⟨_, hrq⟩
      exact huseful hr (hrq.append hv)
    case after =>
      rintro r ⟨_, hqr⟩ ⟨_, hr⟩
      exact huseful (hu.append hqr) hr

/-- The check for words looks for a state on a path that reads one. -/
theorem isEmptyLanguage_iff : A.isEmptyLanguage = true ↔ ∀ w, A.accepts w = false := by
  simp only [isEmptyLanguage, OrderedSet.isEmpty_iff, mem_useful_iff_onAcceptingPath,
    ← Bool.not_eq_true, accepts_iff]
  constructor
  · rintro h w ⟨i, f, hi, hf, hw⟩
    exact h i ⟨i, [], w, f, hi, .refl i, hw, hf⟩
  · rintro h q ⟨i, u, v, f, hi, hu, hv, hf⟩
    exact h (u ++ v) ⟨i, f, hi, hf, hu.append hv⟩

section Valid

variable (hA : A.Valid)
include hA

theorem mem_states_of_mem_useful (hq : q ∈ A.useful) : q ∈ A.states :=
  (mem_useful.mp hq).1.mem_states hA

/-- Counting the useful states is enough to find out whether all states are useful. -/
theorem isPruned_iff : A.isPruned = true ↔ ∀ q ∈ A.states, A.OnAcceptingPath q := by
  rw [isPruned, decide_eq_true_eq]
  simp only [size, OrderedSet.size_eq_iff fun _ => mem_states_of_mem_useful hA,
    mem_useful_iff_onAcceptingPath]

theorem mem_states_prune : q ∈ A.prune.states ↔ q ∈ A.useful :=
  mem_states_within.trans (and_iff_right_of_imp (mem_states_of_mem_useful hA))

theorem onAcceptingPath_of_mem_states_prune (hq : q ∈ A.prune.states) :
    A.prune.OnAcceptingPath q :=
  onAcceptingPath_prune_iff.mpr (mem_useful_iff_onAcceptingPath.mp ((mem_states_prune hA).mp hq))

/-- Nothing is left iff nothing is useful. -/
theorem size_prune_eq_zero_iff : A.prune.size = 0 ↔ A.isEmptyLanguage = true := by
  simp only [size, isEmptyLanguage, ← OrderedSet.isEmpty_iff_size_eq_zero, OrderedSet.isEmpty_iff,
    mem_states_prune hA]

end Valid

/-- `B` has those states of `A` that lie on paths from the initial state to a final state, and
what `A` has between them. -/
structure IsUsefulPart (B A : Automaton) : Prop where
  valid : B.Valid
  alphabet : B.alphabet = A.alphabet
  mem_states : ∀ q, q ∈ B.states ↔ A.OnAcceptingPath q
  mem_edges : ∀ e, e ∈ B.edges ↔ e ∈ A.edges ∧ e.source ∈ B.states ∧ e.target ∈ B.states
  initial : ∀ q, B.initial = some q ↔ A.initial = some q ∧ q ∈ B.states
  mem_finals : ∀ q, q ∈ B.finals ↔ q ∈ A.finals ∧ q ∈ B.states
  accepts : ∀ w, B.accepts w = A.accepts w
  isPruned : B.isPruned = true
  prune_eq : B.prune = B

theorem isUsefulPart_prune (hA : A.Valid) : A.prune.IsUsefulPart A where
  valid := prune_valid hA
  alphabet := rfl
  mem_states _ := (mem_states_prune hA).trans mem_useful_iff_onAcceptingPath
  mem_edges _ := by
    rw [mem_states_prune hA, mem_states_prune hA]
    exact mem_edges_within
  initial _ := by
    rw [mem_states_prune hA]
    exact initial_within_eq_some
  mem_finals _ := by
    rw [mem_states_prune hA]
    exact mem_finals_within
  accepts w := accepts_eq_iff.mpr (prune_language w)
  isPruned := (isPruned_iff (prune_valid hA)).mpr fun _ => onAcceptingPath_of_mem_states_prune hA
  prune_eq := within_eq_self (prune_valid hA) fun _ hq =>
    mem_useful_iff_onAcceptingPath.mpr (onAcceptingPath_of_mem_states_prune hA hq)

/-- **The useful states** are those on paths from the initial state to a final state, pruning keeps
them and what is between them, and there are none iff no word is accepted. -/
theorem useful_and_prune_and_isEmptyLanguage (hA : A.Valid) :
    (∀ q, q ∈ A.useful ↔ A.OnAcceptingPath q) ∧ A.prune.IsUsefulPart A ∧
      (A.isEmptyLanguage = true ↔ ∀ w, A.accepts w = false) ∧
      (A.isEmptyLanguage = true ↔ A.prune.size = 0) :=
  ⟨fun _ => mem_useful_iff_onAcceptingPath, isUsefulPart_prune hA, isEmptyLanguage_iff,
    (size_prune_eq_zero_iff hA).symm⟩

/-- An `a` leads from `p` to `q` and a transition on the empty word from there to the final state
`r`. The state `deadEnd` is not left, and `island` is not entered. -/
def withUselessStates : Automaton where
  states := .ofList [⟨"p"⟩, ⟨"q"⟩, ⟨"r"⟩, ⟨"deadEnd"⟩, ⟨"island"⟩]
  alphabet := .ofList ['a', 'b']
  edges := .ofList [⟨⟨"p"⟩, .symbol 'a', ⟨"q"⟩⟩, ⟨⟨"q"⟩, .epsilon, ⟨"r"⟩⟩,
    ⟨⟨"p"⟩, .symbol 'b', ⟨"deadEnd"⟩⟩, ⟨⟨"island"⟩, .symbol 'b', ⟨"r"⟩⟩]
  initial := some ⟨"p"⟩
  finals := .ofList [⟨"r"⟩]

/-- The transition on the empty word is kept, the useless states are not. -/
theorem prune_withUselessStates :
    ⟨⟨"q"⟩, .epsilon, ⟨"r"⟩⟩ ∈ withUselessStates.prune.edges ∧
      ⟨"deadEnd"⟩ ∉ withUselessStates.prune.states ∧
      ⟨"island"⟩ ∉ withUselessStates.prune.states ∧
      withUselessStates.isEmptyLanguage = false := by
  obtain ⟨-, hpart, hempty, -⟩ :=
    useful_and_prune_and_isEmptyLanguage (A := withUselessStates) (by decide)
  have hpq : withUselessStates.Path ⟨"p"⟩ ['a'] ⟨"q"⟩ := .symbol (by decide) (.refl _)
  have hqr : withUselessStates.Path ⟨"q"⟩ [] ⟨"r"⟩ := .epsilon (by decide) (.refl _)
  have hfinal : ⟨"r"⟩ ∈ withUselessStates.finals := by decide
  refine ⟨(hpart.mem_edges _).mpr ⟨by decide, ?source, ?target⟩, ?deadEnd, ?island, ?word⟩
  case source => exact (hpart.mem_states _).mpr ⟨_, _, _, _, rfl, hpq, hqr, hfinal⟩
  case target =>
    exact (hpart.mem_states _).mpr ⟨_, _, _, _, rfl, hpq.append hqr, .refl _, hfinal⟩
  case deadEnd =>
    intro h
    obtain ⟨i, u, v, f, -, -, hv, hf⟩ := (hpart.mem_states _).mp h
    have hstay : ∀ e ∈ withUselessStates.edges.toList,
        e.source = ⟨"deadEnd"⟩ → e.target = ⟨"deadEnd"⟩ := by decide
    obtain rfl : f = ⟨"deadEnd"⟩ := hv.invariant (P := (· = ⟨"deadEnd"⟩)) hstay rfl
    exact absurd hf (by decide)
  case island =>
    intro h
    obtain ⟨i, u, v, f, hi, hu, -, -⟩ := (hpart.mem_states _).mp h
    have hstay : ∀ e ∈ withUselessStates.edges.toList,
        e.source ≠ ⟨"island"⟩ → e.target ≠ ⟨"island"⟩ := by decide
    obtain rfl : ⟨"p"⟩ = i := Option.some.inj hi
    exact hu.invariant (P := (· ≠ ⟨"island"⟩)) hstay (by decide) rfl
  case word =>
    rw [← Bool.not_eq_true, hempty]
    intro hnone
    have hword : withUselessStates.accepts ['a'] = true :=
      accepts_iff.mpr ⟨_, _, rfl, hfinal, hpq.append hqr⟩
    exact absurd hword (Bool.eq_false_iff.mp (hnone ['a']))

end Automaton

end RegularLanguages
