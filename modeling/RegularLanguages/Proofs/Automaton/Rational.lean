import RegularLanguages.Automaton.Rational
import RegularLanguages.Proofs.Automaton.Renaming

/-!
# The rational operations keep automata valid

Union, concatenation and repetition put the transitions of their operands side by side and join
them by transitions on the empty word between states of the result.

Results:
* `mem_bridges`: the transitions that join.
* `mem_edges_union`, `mem_edges_concatenate`, `mem_edges_star`: the transitions of the results.
* `join_valid`: valid parts that are joined on the empty word are valid.
* **`union_valid`**, **`concatenate_valid`**, **`star_valid`**.
-/

namespace RegularLanguages.Automaton

variable {A B L R : Automaton} {p q : State} {e : Edge} {sources targets : List State}

theorem mem_bridges :
    e ∈ bridges sources targets ↔
      ∃ p ∈ sources, ∃ q ∈ targets, ⟨p, .epsilon, q⟩ = e := by
  simp only [bridges, OrderedSet.mem_ofList, List.mem_flatMap, List.mem_map]

/-- The states and transitions of two automata side by side. -/
def beside (L R : Automaton) : Automaton where
  states := L.states ∪ R.states
  alphabet := L.alphabet ∪ R.alphabet
  edges := L.edges ∪ R.edges
  initial := none
  finals := ∅

theorem beside_valid (hL : L.Valid) (hR : R.Valid) : (L.beside R).Valid where
  initial_mem _ hq := nomatch hq
  final_mem q hq := absurd hq (OrderedSet.not_mem_empty q)
  source_mem e he := OrderedSet.mem_union.mpr
    ((OrderedSet.mem_union.mp he).imp (hL.source_mem e) (hR.source_mem e))
  target_mem e he := OrderedSet.mem_union.mpr
    ((OrderedSet.mem_union.mp he).imp (hL.target_mem e) (hR.target_mem e))
  label_mem e he c hc := OrderedSet.mem_union.mpr
    ((OrderedSet.mem_union.mp he).imp (hL.label_mem e · c hc) (hR.label_mem e · c hc))
  epsilon_not_mem hε := (OrderedSet.mem_union.mp hε).elim hL.epsilon_not_mem hR.epsilon_not_mem

/-- Further states and transitions on the empty word between states keep an automaton valid,
whichever states become initial and final. -/
theorem join_valid (sources targets : List State) (hA : A.Valid)
    (hstates : ∀ q ∈ A.states, q ∈ B.states)
    (halphabet : B.alphabet = A.alphabet)
    (hedges : B.edges = bridges sources targets ∪ A.edges)
    (hsources : ∀ q ∈ sources, q ∈ B.states) (htargets : ∀ q ∈ targets, q ∈ B.states)
    (hinitial : ∀ q, B.initial = some q → q ∈ B.states)
    (hfinals : ∀ q ∈ B.finals, q ∈ B.states) : B.Valid := by
  have hcases (e : Edge) (he : e ∈ B.edges) :
      (∃ p ∈ sources, ∃ q ∈ targets, ⟨p, .epsilon, q⟩ = e) ∨ e ∈ A.edges := by
    rw [hedges, OrderedSet.mem_union, mem_bridges] at he
    exact he
  constructor
  case initial_mem => exact hinitial
  case final_mem => exact hfinals
  case source_mem =>
    intro e he
    rcases hcases e he with ⟨p, hp, q, -, rfl⟩ | he
    · exact hsources p hp
    · exact hstates _ (hA.source_mem e he)
  case target_mem =>
    intro e he
    rcases hcases e he with ⟨p, -, q, hq, rfl⟩ | he
    · exact htargets q hq
    · exact hstates _ (hA.target_mem e he)
  case label_mem =>
    intro e he c hc
    rcases hcases e he with ⟨p, -, q, -, rfl⟩ | he
    · exact nomatch hc
    · exact halphabet ▸ hA.label_mem e he c hc
  case epsilon_not_mem => exact halphabet ▸ hA.epsilon_not_mem

theorem asLeft_valid (hA : A.Valid) : A.asLeft.Valid := rename_valid hA

theorem asRight_valid (hB : B.Valid) : B.asRight.Valid := rename_valid hB

/-- The initial state of a union. -/
def unionStart (A B : Automaton) : State :=
  ((FreshNames.avoiding (A.asLeft.states ∪ B.asRight.states).toList).claim ⟨"init"⟩).1

theorem mem_states_union : q ∈ (A.union B).states ↔
    q = A.unionStart B ∨ q ∈ A.asLeft.states ∨ q ∈ B.asRight.states := by
  show q ∈ (A.asLeft.states ∪ B.asRight.states).insert (A.unionStart B) ↔ _
  rw [OrderedSet.mem_insert, OrderedSet.mem_union]

/-- The transitions of a union: into either part, and those of the parts. -/
theorem mem_edges_union : e ∈ (A.union B).edges ↔
    (∃ i, (A.asLeft.initial = some i ∨ B.asRight.initial = some i) ∧
      e = ⟨A.unionStart B, .epsilon, i⟩) ∨ e ∈ A.asLeft.edges ∨ e ∈ B.asRight.edges := by
  show e ∈ bridges [A.unionStart B] (A.asLeft.initial.toList ++ B.asRight.initial.toList) ∪
    (A.asLeft.edges ∪ B.asRight.edges) ↔ _
  rw [OrderedSet.mem_union, OrderedSet.mem_union, mem_bridges]
  simp only [List.mem_singleton, exists_eq_left, List.mem_append, Option.mem_toList,
    eq_comm (b := e)]

theorem mem_finals_union :
    q ∈ (A.union B).finals ↔ q ∈ A.asLeft.finals ∨ q ∈ B.asRight.finals := OrderedSet.mem_union

/-- **The union of valid automata is valid.** -/
theorem union_valid (hA : A.Valid) (hB : B.Valid) : (A.union B).Valid := by
  have hL := asLeft_valid hA
  have hR := asRight_valid hB
  refine join_valid [A.unionStart B] (A.asLeft.initial.toList ++ B.asRight.initial.toList)
    (beside_valid hL hR) ?_ rfl rfl ?_ ?_ ?_ ?_
  · intro q hq
    exact mem_states_union.mpr (Or.inr (OrderedSet.mem_union.mp hq))
  · intro q hq
    exact mem_states_union.mpr (Or.inl (List.mem_singleton.mp hq))
  · intro q hq
    rcases List.mem_append.mp hq with hq | hq
    · exact mem_states_union.mpr (Or.inr (Or.inl (hL.initial_mem q (Option.mem_toList.mp hq))))
    · exact mem_states_union.mpr (Or.inr (Or.inr (hR.initial_mem q (Option.mem_toList.mp hq))))
  · intro q hq
    exact mem_states_union.mpr (Or.inl (Option.some.inj hq).symm)
  · intro q hq
    exact mem_states_union.mpr (Or.inr
      ((OrderedSet.mem_union.mp hq).imp (hL.final_mem q) (hR.final_mem q)))

@[simp] theorem alphabet_union (A B : Automaton) :
    (A.union B).alphabet = A.alphabet ∪ B.alphabet := rfl

theorem mem_states_concatenate :
    q ∈ (A.concatenate B).states ↔ q ∈ A.asLeft.states ∨ q ∈ B.asRight.states :=
  OrderedSet.mem_union

/-- The transitions of a concatenation: from the left part to the right one, and those of the
parts. -/
theorem mem_edges_concatenate : e ∈ (A.concatenate B).edges ↔
    (∃ p ∈ A.asLeft.finals, ∃ i, B.asRight.initial = some i ∧ e = ⟨p, .epsilon, i⟩) ∨
      e ∈ A.asLeft.edges ∨ e ∈ B.asRight.edges := by
  show e ∈ bridges A.asLeft.finals.toList B.asRight.initial.toList ∪
    (A.asLeft.edges ∪ B.asRight.edges) ↔ _
  rw [OrderedSet.mem_union, OrderedSet.mem_union, mem_bridges]
  simp only [OrderedSet.mem_toList, Option.mem_toList, eq_comm (b := e)]

/-- **The concatenation of valid automata is valid.** -/
theorem concatenate_valid (hA : A.Valid) (hB : B.Valid) : (A.concatenate B).Valid := by
  have hL := asLeft_valid hA
  have hR := asRight_valid hB
  have hleft (q : State) (hq : q ∈ A.asLeft.states) : q ∈ (A.concatenate B).states :=
    OrderedSet.mem_union.mpr (Or.inl hq)
  have hright (q : State) (hq : q ∈ B.asRight.states) : q ∈ (A.concatenate B).states :=
    OrderedSet.mem_union.mpr (Or.inr hq)
  refine join_valid A.asLeft.finals.toList B.asRight.initial.toList (beside_valid hL hR)
    (fun q hq => hq) rfl rfl ?_ ?_ ?_ ?_
  · exact fun q hq => hleft q (hL.final_mem q hq)
  · exact fun q hq => hright q (hR.initial_mem q (Option.mem_toList.mp hq))
  · exact fun q hq => hleft q (hL.initial_mem q hq)
  · exact fun q hq => hright q (hR.final_mem q hq)

@[simp] theorem alphabet_concatenate (A B : Automaton) :
    (A.concatenate B).alphabet = A.alphabet ∪ B.alphabet := rfl

/-- The initial and the final state of a repetition. -/
def starEnds (A : Automaton) : State × State :=
  let start := (FreshNames.avoiding A.states.toList).claim ⟨"init"⟩
  (start.1, (start.2.claim ⟨"final"⟩).1)

theorem mem_states_star :
    q ∈ A.star.states ↔ q = A.starEnds.2 ∨ q = A.starEnds.1 ∨ q ∈ A.states := by
  show q ∈ (A.states.insert A.starEnds.1).insert A.starEnds.2 ↔ _
  rw [OrderedSet.mem_insert, OrderedSet.mem_insert]

theorem edges_star_of_initial_eq_none (h : A.initial = none) :
    A.star.edges = bridges [A.starEnds.1] [A.starEnds.2] ∪ A.edges := by
  simp only [star, h]
  rfl

theorem edges_star_of_initial_eq_some {i : State} (h : A.initial = some i) :
    A.star.edges = bridges (A.starEnds.1 :: A.finals.toList) [A.starEnds.2, i] ∪ A.edges := by
  simp only [star, h]
  rfl

/-- The transitions of a repetition: past the automaton, into it, back to its start and out of
it. -/
theorem mem_edges_star : e ∈ A.star.edges ↔ e = ⟨A.starEnds.1, .epsilon, A.starEnds.2⟩ ∨
    (∃ i, A.initial = some i ∧ (e = ⟨A.starEnds.1, .epsilon, i⟩ ∨
      ∃ q ∈ A.finals, e = ⟨q, .epsilon, i⟩ ∨ e = ⟨q, .epsilon, A.starEnds.2⟩)) ∨ e ∈ A.edges := by
  rw [← or_assoc]
  cases hi : A.initial with
  | none =>
    rw [edges_star_of_initial_eq_none hi, OrderedSet.mem_union]
    refine or_congr_left ?_
    simp [mem_bridges, eq_comm]
  | some i =>
    rw [edges_star_of_initial_eq_some hi, OrderedSet.mem_union]
    refine or_congr_left ?_
    simp only [mem_bridges, List.mem_cons, List.not_mem_nil, or_false, exists_eq_or_imp,
      exists_eq_left, OrderedSet.mem_toList, Option.some.injEq, exists_eq_left', or_assoc,
      eq_comm (b := e), or_comm (b := e = ⟨_, .epsilon, i⟩)]
    exact or_left_comm

/-- **The repetition of a valid automaton is valid.** -/
theorem star_valid (hA : A.Valid) : A.star.Valid := by
  have hstates (q : State) (hq : q ∈ A.states) : q ∈ A.star.states :=
    mem_states_star.mpr (Or.inr (Or.inr hq))
  have hstart : A.starEnds.1 ∈ A.star.states := mem_states_star.mpr (Or.inr (Or.inl rfl))
  have hstop : A.starEnds.2 ∈ A.star.states := mem_states_star.mpr (Or.inl rfl)
  have hinitial (q : State) (hq : A.star.initial = some q) : q ∈ A.star.states :=
    Option.some.inj hq ▸ hstart
  have hfinals (q : State) (hq : q ∈ A.star.finals) : q ∈ A.star.states :=
    List.mem_singleton.mp (OrderedSet.mem_ofList.mp hq) ▸ hstop
  cases hi : A.initial with
  | none =>
    refine join_valid [A.starEnds.1] [A.starEnds.2] hA hstates rfl
      (edges_star_of_initial_eq_none hi) ?_ ?_ hinitial hfinals
    · exact fun q hq => List.mem_singleton.mp hq ▸ hstart
    · exact fun q hq => List.mem_singleton.mp hq ▸ hstop
  | some i =>
    refine join_valid (A.starEnds.1 :: A.finals.toList) [A.starEnds.2, i] hA hstates rfl
      (edges_star_of_initial_eq_some hi) ?_ ?_ hinitial hfinals
    · intro q hq
      rcases List.mem_cons.mp hq with rfl | hq
      · exact hstart
      · exact hstates q (hA.final_mem q hq)
    · intro q hq
      rcases List.mem_cons.mp hq with rfl | hq
      · exact hstop
      · exact hstates q (List.mem_singleton.mp hq ▸ hA.initial_mem i hi)

@[simp] theorem alphabet_star (A : Automaton) : A.star.alphabet = A.alphabet := rfl

end RegularLanguages.Automaton
