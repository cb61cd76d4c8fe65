import Mathlib.Data.List.Sublists
import RegularLanguages.Automaton.Subsets
import RegularLanguages.Proofs.Automaton.Unfolding

/-!
# The subset construction

The vertices of the subset construction are the closed sets of states to which words lead from
the initial state. All of them are sets of states, so there are at most `2 ^ n` for `n` states
and the fuel of the construction is enough. The automaton is a picture of these sets.

Results:
* `determinize_depicts`: the determinized automaton is a picture of the closed sets.
* `determinize_valid`, `determinize_deterministic`, `determinize_accessible`.
* **`determinize_language`**: the language stays the same.
-/

namespace RegularLanguages

namespace Automaton

variable {A : Automaton}

theorem void_valid {alphabet : OrderedSet Char} (h : epsilonChar ∉ alphabet) :
    (void alphabet).Valid where
  initial_mem _ hq := absurd hq (by simp [void])
  final_mem q hq := absurd hq (OrderedSet.not_mem_empty q)
  source_mem e he := absurd he (OrderedSet.not_mem_empty e)
  target_mem e he := absurd he (OrderedSet.not_mem_empty e)
  label_mem e he := absurd he (OrderedSet.not_mem_empty e)
  epsilon_not_mem := h

theorem void_deterministic (alphabet : OrderedSet Char) : (void alphabet).Deterministic where
  not_epsilon _ _ he := absurd he (OrderedSet.not_mem_empty _)
  target_unique he := absurd he (OrderedSet.not_mem_empty _)

theorem not_language_void (alphabet : OrderedSet Char) (w : Word) :
    ¬ (void alphabet).language w :=
  not_language_of_initial_eq_none rfl w

/-! ## Closed sets as vertices -/

/-- The transitions of the subset construction. -/
abbrev setMoves (A : Automaton) : OrderedSet State → List (Char × OrderedSet State) :=
  A.adjacency.subsetMoves A.alphabet

theorem mem_setMoves {S T : OrderedSet State} {c : Char} :
    (c, T) ∈ A.setMoves S ↔
      c ∈ A.alphabet ∧ T = A.adjacency.closure (A.adjacency.step S c) ∧ ∃ p, p ∈ T := by
  simp only [setMoves, Adjacency.subsetMoves, List.mem_filterMap, OrderedSet.mem_toList]
  constructor
  · rintro ⟨d, hd, h⟩
    split at h
    · exact absurd h (by simp)
    · rename_i hne
      obtain ⟨rfl, rfl⟩ := Prod.mk.inj (Option.some.inj h)
      exact ⟨hd, rfl, OrderedSet.exists_mem_of_not_isEmpty hne⟩
  · rintro ⟨hc, rfl, p, hp⟩
    refine ⟨c, hc, if_neg fun h => ?_⟩
    exact OrderedSet.isEmpty_iff.mp h p hp

/-- Sets of states, as many as there are sublists of the list of states. -/
def allSets (A : Automaton) : List (OrderedSet State) :=
  A.states.toList.sublists.map OrderedSet.ofList

theorem mem_allSets {S : OrderedSet State} (h : ∀ q ∈ S, q ∈ A.states) : S ∈ A.allSets :=
  List.mem_map.mpr ⟨S.toList, List.mem_sublists.mpr (OrderedSet.toList_sublist h),
    OrderedSet.ofList_toList S⟩

theorem closure_subset_states (hA : A.Valid) {seeds : List State}
    (h : ∀ q ∈ seeds, q ∈ A.states) : ∀ q ∈ A.adjacency.closure seeds, q ∈ A.states := by
  intro q hq
  obtain ⟨p, hp, hpq⟩ := mem_closure_iff.mp hq
  exact path_target_mem hA hpq (h p hp)

/-- The fuel of the subset construction is enough. -/
theorem bounded_setMoves (hA : A.Valid) {i : State} (hi : A.initial = some i) :
    Search.Bounded A.setMoves (Nat.pow 2 A.size) [A.adjacency.closure [i]] := by
  refine ⟨A.allSets, ?_, ?_, ?_⟩
  · intro S hS
    rw [List.mem_singleton.mp hS]
    refine mem_allSets (closure_subset_states hA fun q hq => ?_)
    rw [List.mem_singleton.mp hq]
    exact hA.initial_mem i hi
  · intro S _ T hT
    obtain ⟨c, hc⟩ := Search.mem_targets.mp hT
    obtain ⟨_, rfl, _⟩ := mem_setMoves.mp hc
    refine mem_allSets (closure_subset_states hA fun q hq => ?_)
    obtain ⟨p, _, he⟩ := mem_step_iff.mp hq
    exact hA.target_mem _ he
  · rw [allSets, List.length_map, List.length_sublists]
    exact Nat.le_refl _

theorem closed_of_reaches {i : State} {S : OrderedSet State}
    (h : Search.Reaches A.setMoves [A.adjacency.closure [i]] S) : A.Closed S := by
  cases h with
  | root h =>
    rw [List.mem_singleton.mp h]
    exact closed_closure _
  | step _ h =>
    obtain ⟨_, rfl, _⟩ := mem_setMoves.mp h
    exact closed_closure _

/-! ## The determinized automaton -/

/-- **The determinized automaton is a picture of the closed sets** that can be reached. -/
theorem determinize_depicts (hA : A.Valid) {i : State} (hi : A.initial = some i) :
    ∃ name, A.determinize.Depicts A.setMoves (fun S => S.toList.any A.isFinal)
      (A.adjacency.closure [i]) name := by
  unfold determinize
  rw [hi]
  exact exists_depicts (bounded_setMoves hA hi) _ _ _

theorem determinize_of_initial_eq_none (hi : A.initial = none) :
    A.determinize = void A.alphabet := by
  unfold determinize
  rw [hi]

@[simp] theorem alphabet_determinize (A : Automaton) : A.determinize.alphabet = A.alphabet := by
  unfold determinize
  split <;> rfl

theorem isSome_initial_determinize (A : Automaton) :
    A.determinize.initial.isSome = A.initial.isSome := by
  unfold determinize
  split
  · rename_i hi
    rw [hi]
    rfl
  · rename_i hi
    rw [hi]
    rfl

theorem determinize_valid (hA : A.Valid) : A.determinize.Valid := by
  cases hi : A.initial with
  | none =>
    rw [determinize_of_initial_eq_none hi]
    exact void_valid hA.epsilon_not_mem
  | some i =>
    obtain ⟨name, h⟩ := determinize_depicts hA hi
    refine h.valid ?_ fun S c T hcT => ?_
    · rw [alphabet_determinize]
      exact hA.epsilon_not_mem
    · rw [alphabet_determinize]
      exact (mem_setMoves.mp hcT).1

theorem determinize_deterministic (hA : A.Valid) : A.determinize.Deterministic := by
  cases hi : A.initial with
  | none =>
    rw [determinize_of_initial_eq_none hi]
    exact void_deterministic _
  | some i =>
    obtain ⟨name, h⟩ := determinize_depicts hA hi
    refine h.deterministic fun S c T T' hT hT' => ?_
    exact (mem_setMoves.mp hT).2.1.trans (mem_setMoves.mp hT').2.1.symm

theorem determinize_accessible (hA : A.Valid) {q : State} (hq : q ∈ A.determinize.states) :
    A.determinize.Accessible q := by
  cases hi : A.initial with
  | none =>
    rw [determinize_of_initial_eq_none hi] at hq
    exact absurd hq (OrderedSet.not_mem_empty q)
  | some i =>
    obtain ⟨name, h⟩ := determinize_depicts hA hi
    exact h.accessible hq

/-- The state of a closed set means what its members mean together. -/
theorem languageFrom_name (hA : A.Valid) {i : State} {name : OrderedSet State → State}
    (h : A.determinize.Depicts A.setMoves (fun S => S.toList.any A.isFinal)
      (A.adjacency.closure [i]) name) :
    ∀ (w : Word) (S : OrderedSet State),
      Search.Reaches A.setMoves [A.adjacency.closure [i]] S →
      (A.determinize.languageFrom (name S) w ↔ ∃ p ∈ S, A.languageFrom p w)
  | [], S, hS => by
    rw [languageFrom_nil (determinize_deterministic hA), h.mem_finals_name hS, List.any_eq_true]
    simp only [OrderedSet.mem_toList, isFinal, decide_eq_true_eq]
    constructor
    · rintro ⟨p, hp, hf⟩
      exact ⟨p, hp, p, hf, .refl p⟩
    · rintro ⟨p, hp, f, hf, hpf⟩
      exact ⟨f, closed_of_reaches hS p hp f hpf, hf⟩
  | c :: w, S, hS => by
    have hnext : (∃ p ∈ S, A.languageFrom p (c :: w)) ↔
        ∃ p ∈ A.adjacency.closure (A.adjacency.step S c), A.languageFrom p w := by
      constructor
      · rintro ⟨p, hp, r, hr, hpr⟩
        obtain ⟨p', hp', hpr'⟩ := (exists_path_cons_iff (closed_of_reaches hS)).mp ⟨p, hp, hpr⟩
        exact ⟨p', hp', r, hr, hpr'⟩
      · rintro ⟨p, hp, r, hr, hpr⟩
        obtain ⟨p', hp', hpr'⟩ := (exists_path_cons_iff (closed_of_reaches hS)).mpr ⟨p, hp, hpr⟩
        exact ⟨p', hp', r, hr, hpr'⟩
    rw [hnext]
    constructor
    · rintro ⟨r, hr, hpath⟩
      obtain ⟨q, he, hpath'⟩ := (path_cons_iff_edge (determinize_deterministic hA)).mp hpath
      obtain ⟨d, T, hd, hT, rfl⟩ := (h.mem_edges_name hS).mp he
      cases hd
      rw [← (mem_setMoves.mp hT).2.1]
      exact (languageFrom_name hA h w T (hS.step hT)).mp ⟨r, hr, hpath'⟩
    · -- the target set is not empty, since the rest of the word starts in it
      rintro ⟨p, hp, hw⟩
      have hc : c ∈ A.alphabet := by
        obtain ⟨q, _, q', he, _⟩ := mem_closure_step_iff.mp hp
        exact hA.label_mem _ he c rfl
      have hT : (c, A.adjacency.closure (A.adjacency.step S c)) ∈ A.setMoves S :=
        mem_setMoves.mpr ⟨hc, rfl, p, hp⟩
      have he := (h.mem_edges_name hS).mpr ⟨c, _, rfl, hT, rfl⟩
      rw [languageFrom_cons_of_edge (determinize_deterministic hA) he]
      exact (languageFrom_name hA h w _ (hS.step hT)).mpr ⟨p, hp, hw⟩

/-- **Determinizing keeps the language.** -/
theorem determinize_language (hA : A.Valid) (w : Word) :
    A.determinize.language w ↔ A.language w := by
  cases hi : A.initial with
  | none =>
    rw [determinize_of_initial_eq_none hi]
    exact iff_of_false (not_language_void _ w) (not_language_of_initial_eq_none hi w)
  | some i =>
    obtain ⟨name, h⟩ := determinize_depicts hA hi
    rw [language_eq_languageFrom h.initial, language_eq_languageFrom hi,
      languageFrom_name hA h w _ (.root List.mem_cons_self)]
    constructor
    · rintro ⟨p, hp, f, hf, hpf⟩
      obtain ⟨q, hq, hqp⟩ := mem_closure_iff.mp hp
      rw [List.mem_singleton.mp hq] at hqp
      exact ⟨f, hf, hqp.append hpf⟩
    · intro hw
      exact ⟨i, mem_closure_iff.mpr ⟨i, List.mem_cons_self, .refl i⟩, hw⟩

end Automaton

end RegularLanguages
