import Mathlib.Data.List.ProdSigma
import RegularLanguages.Automaton.Boolean
import RegularLanguages.Proofs.Automaton.Epsilon
import RegularLanguages.Proofs.Automaton.Equivalence

/-!
# The Boolean operations keep automata valid

A complement has the states of a completed automaton. The product of two automata is a picture of
the pairs of states that one word can lead to. As all of these are pairs of states, there are at
most as many as the fuel of the search.

Results:
* **`complementOver_valid`**, `alphabet_complementOver`: complements.
* **`intersection_depicts`**: the product is a picture of the pairs that can be reached.
* **`intersection_valid`**, **`difference_valid`**.
-/

namespace RegularLanguages.Automaton

variable {A B L R : Automaton} {p q : State} {c : Char}

/-! ## Complements -/

theorem swapFinals_valid (hA : A.Valid) : A.swapFinals.Valid :=
  { hA with final_mem := fun _ hq => (OrderedSet.mem_filter.mp hq).1 }

/-- The automaton of which a complement swaps the final states. -/
def complementBase (A : Automaton) (symbols : OrderedSet Char) : Automaton :=
  let E := A.extended symbols
  if E.initial.isSome then E.complete else rejecting E.alphabet ⟨"q0"⟩

theorem complementBase_total (hA : A.Valid) (symbols : OrderedSet Char) :
    (A.complementBase symbols).Total := by
  have hE := extended_valid hA symbols
  unfold complementBase
  by_cases hi : (A.extended symbols).initial.isSome = true
  · rw [if_pos hi]
    exact complete_total hE
  · rw [if_neg hi]
    exact rejecting_total hE.epsilon_not_mem

/-- **A complement of a valid automaton is valid.** -/
theorem complementOver_valid (hA : A.Valid) (symbols : OrderedSet Char) :
    (A.complementOver symbols).Valid :=
  swapFinals_valid (complementBase_total hA symbols).valid

/-- The alphabet of a complement is extended by the given symbols, but not by `ε`. -/
@[simp] theorem alphabet_complementOver (A : Automaton) (symbols : OrderedSet Char) :
    (A.complementOver symbols).alphabet = A.alphabet ∪ symbols.filter (· ≠ epsilonChar) := by
  show (A.complementBase symbols).alphabet = _
  unfold complementBase
  by_cases hi : (A.extended symbols).initial.isSome = true
  · rw [if_pos hi, alphabet_complete]
    rfl
  · rw [if_neg hi]
    rfl

@[simp] theorem alphabet_complement (A : Automaton) : A.complement.alphabet = A.alphabet := by
  rw [complement, alphabet_complementOver]
  refine OrderedSet.ext_mem fun c => ?_
  rw [OrderedSet.mem_union, OrderedSet.mem_filter]
  exact or_iff_left_of_imp And.left

/-! ## Products -/

theorem mem_pairMoves {alphabet : OrderedSet Char} {v v' : State × State} :
    (c, v') ∈ pairMoves L.adjacency R.adjacency alphabet v ↔
      c ∈ alphabet ∧ ⟨v.1, .symbol c, v'.1⟩ ∈ L.edges ∧ ⟨v.2, .symbol c, v'.2⟩ ∈ R.edges := by
  simp only [pairMoves, List.mem_flatMap, List.mem_map, mem_targets_adjacency,
    OrderedSet.mem_toList]
  constructor
  · rintro ⟨d, hd, p, hp, q, hq, h⟩
    obtain ⟨rfl, rfl⟩ := Prod.mk.inj h
    exact ⟨hd, hp, hq⟩
  · rintro ⟨hc, hp, hq⟩
    exact ⟨c, hc, v'.1, hp, v'.2, hq, rfl⟩

/-- The pairs of a product are pairs of states, so the search has fuel for all of them. -/
theorem bounded_pairMoves (hL : L.Valid) (hR : R.Valid) (alphabet : OrderedSet Char)
    (hp : p ∈ L.states) (hq : q ∈ R.states) :
    Search.Bounded (pairMoves L.adjacency R.adjacency alphabet) (L.size * R.size) [(p, q)] := by
  refine ⟨L.states.toList ×ˢ R.states.toList, ?_, ?_, ?_⟩
  · intro v hv
    rw [List.mem_singleton.mp hv]
    exact List.mem_product.mpr ⟨hp, hq⟩
  · intro u _ v hv
    obtain ⟨c, hc⟩ := Search.mem_targets.mp hv
    obtain ⟨-, hl, hr⟩ := mem_pairMoves.mp hc
    exact List.mem_product.mpr ⟨hL.target_mem _ hl, hR.target_mem _ hr⟩
  · rw [List.length_product]
    exact Nat.le_refl _

/-- The transitions of the product of two automata. -/
abbrev productMoves (A B : Automaton) : State × State → List (Char × (State × State)) :=
  pairMoves A.removeEpsilon.adjacency B.removeEpsilon.adjacency (A.alphabet ∩ B.alphabet)

/-- **The product is a picture of the pairs** that can be reached. -/
theorem intersection_depicts (hA : A.Valid) (hB : B.Valid) (hp : A.initial = some p)
    (hq : B.initial = some q) :
    ∃ name, (A.intersection B).Depicts (A.productMoves B)
      (fun v => A.removeEpsilon.isFinal v.1 && B.removeEpsilon.isFinal v.2) (p, q) name := by
  have hbounded := bounded_pairMoves (removeEpsilon_valid hA) (removeEpsilon_valid hB)
    (A.alphabet ∩ B.alphabet) (hA.initial_mem p hp) (hB.initial_mem q hq)
  have hp' : A.removeEpsilon.initial = some p := hp
  have hq' : B.removeEpsilon.initial = some q := hq
  simp only [intersection, hp', hq']
  exact exists_depicts hbounded _ _ _

theorem intersection_of_initial_eq_none (h : A.initial = none ∨ B.initial = none) :
    A.intersection B = void (A.alphabet ∩ B.alphabet) := by
  have h' : A.removeEpsilon.initial = none ∨ B.removeEpsilon.initial = none := h
  simp only [intersection]
  split
  · rename_i hp hq
    rcases h' with h' | h'
    · exact absurd (h'.symm.trans hp) (by simp)
    · exact absurd (h'.symm.trans hq) (by simp)
  · rfl

@[simp] theorem alphabet_intersection (A B : Automaton) :
    (A.intersection B).alphabet = A.alphabet ∩ B.alphabet := by
  simp only [intersection]
  split <;> rfl

/-- **The intersection of valid automata is valid.** -/
theorem intersection_valid (hA : A.Valid) (hB : B.Valid) : (A.intersection B).Valid := by
  have hε : epsilonChar ∉ A.alphabet ∩ B.alphabet := fun h =>
    hA.epsilon_not_mem (OrderedSet.mem_inter.mp h).1
  cases hp : A.initial with
  | none =>
    rw [intersection_of_initial_eq_none (Or.inl hp)]
    exact void_valid hε
  | some p =>
    cases hq : B.initial with
    | none =>
      rw [intersection_of_initial_eq_none (Or.inr hq)]
      exact void_valid hε
    | some q =>
      obtain ⟨name, h⟩ := intersection_depicts hA hB hp hq
      rw [← alphabet_intersection] at hε
      refine h.valid hε fun v c w hcw => ?_
      rw [alphabet_intersection]
      exact (mem_pairMoves.mp hcw).1

/-- **The difference of valid automata is valid.** -/
theorem difference_valid (hA : A.Valid) (hB : B.Valid) : (A.difference B).Valid :=
  intersection_valid hA (complementOver_valid hB _)

/-- The alphabet of a difference is that of the first automaton. -/
theorem alphabet_difference (hA : A.Valid) : (A.difference B).alphabet = A.alphabet := by
  rw [difference, alphabet_intersection, alphabet_complementOver]
  refine OrderedSet.ext_mem fun c => ?_
  rw [OrderedSet.mem_inter, OrderedSet.mem_union, OrderedSet.mem_filter, OrderedSet.mem_union,
    decide_eq_true_eq]
  refine and_iff_left_of_imp fun hc => Or.inr ⟨Or.inl hc, ?_⟩
  rintro rfl
  exact hA.epsilon_not_mem hc

end RegularLanguages.Automaton
