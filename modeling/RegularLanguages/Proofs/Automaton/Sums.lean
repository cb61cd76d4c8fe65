import RegularLanguages.Proofs.Automaton.Rational
import RegularLanguages.Proofs.FreshNames
import RegularLanguages.Proofs.Regex.Reading

/-!
# What unions and concatenations accept

The operands of a union and of a concatenation are copied side by side. The tags in front of the
names keep the two copies apart, whatever the states are called and also where both operands are
one automaton, and either copy accepts what its operand accepts.

For every state of the result the words that lead from it to a final state are given in terms of
the copies (`unionFrom`, `concatenateFrom`). No transition leads from one copy of a union to the
other. The left copy of a concatenation is left at its final states only, and nothing leads back.
So going back along a transition stays within the given words.

Results:
* `not_mem_states_asRight`, `language_asLeft`, `language_asRight`: the copies.
* `languageFrom_union_iff`, `languageFrom_concatenate_iff`: what the states of the results mean.
* `size_union`, `size_concatenate`: no two states become one.
* **`accepts_union_and_size`**, **`accepts_concatenate_iff_and_size`**.
-/

namespace RegularLanguages

theorem State.tagged_ne_tagged (p q : State) : p.tagged "1_" ≠ q.tagged "2_" := by
  intro h
  have hname : ("1_" ++ p.name).toList = ("2_" ++ q.name).toList := congrArg (·.name.toList) h
  simp [String.toList_append] at hname

namespace Automaton

variable {A B : Automaton} {p q : State} {w : Word}

/-! ## The copies -/

theorem faithful_tagged (A : Automaton) (tag : String) : A.Faithful (State.tagged tag) :=
  fun _ _ _ _ => State.tagged_injective

/-- A state of the left copy is none of the right one. -/
theorem not_mem_states_asRight (hq : q ∈ A.asLeft.states) : q ∉ B.asRight.states := by
  intro hq'
  obtain ⟨p, -, rfl⟩ := mem_states_rename.mp hq
  obtain ⟨r, -, hr⟩ := mem_states_rename.mp hq'
  exact State.tagged_ne_tagged p r hr.symm

theorem not_mem_states_asLeft (hq : q ∈ B.asRight.states) : q ∉ A.asLeft.states :=
  fun hq' => not_mem_states_asRight hq' hq

theorem language_asLeft (hA : A.Valid) : A.asLeft.language w ↔ A.language w :=
  rename_language hA (faithful_tagged A "1_") w

theorem language_asRight (hB : B.Valid) : B.asRight.language w ↔ B.language w :=
  rename_language hB (faithful_tagged B "2_") w

/-- The states of both copies are as many as those of both automata. -/
theorem size_copies (A B : Automaton) :
    (A.asLeft.states ∪ B.asRight.states).size = A.size + B.size := by
  have hleft : A.asLeft.states.size = A.size := OrderedSet.size_map (faithful_tagged A "1_")
  have hright : B.asRight.states.size = B.size := OrderedSet.size_map (faithful_tagged B "2_")
  rw [OrderedSet.size_union fun _ => not_mem_states_asRight, hleft, hright]

/-! ## Union -/

theorem unionStart_not_mem (A B : Automaton) :
    A.unionStart B ∉ A.asLeft.states ∪ B.asRight.states :=
  FreshNames.claim_avoiding_not_mem _ _

/-- The words that lead from a state of a union to a final state. -/
def unionFrom (A B : Automaton) (q : State) : Language :=
  if q ∈ A.asLeft.states then A.asLeft.languageFrom q
  else if q ∈ B.asRight.states then B.asRight.languageFrom q
  else fun w => A.asLeft.language w ∨ B.asRight.language w

theorem unionFrom_left (hq : q ∈ A.asLeft.states) :
    A.unionFrom B q = A.asLeft.languageFrom q := if_pos hq

theorem unionFrom_right (hq : q ∈ B.asRight.states) :
    A.unionFrom B q = B.asRight.languageFrom q := by
  rw [unionFrom, if_neg (not_mem_states_asLeft hq), if_pos hq]

theorem unionFrom_start :
    A.unionFrom B (A.unionStart B) = fun w => A.asLeft.language w ∨ B.asRight.language w := by
  have h := unionStart_not_mem A B
  rw [OrderedSet.mem_union, not_or] at h
  rw [unionFrom, if_neg h.1, if_neg h.2]

theorem languageFrom_union_of_left (h : A.asLeft.languageFrom q w) :
    (A.union B).languageFrom q w :=
  languageFrom_mono (fun _ he => mem_edges_union.mpr (Or.inr (Or.inl he)))
    (fun _ hq => mem_finals_union.mpr (Or.inl hq)) h

theorem languageFrom_union_of_right (h : B.asRight.languageFrom q w) :
    (A.union B).languageFrom q w :=
  languageFrom_mono (fun _ he => mem_edges_union.mpr (Or.inr (Or.inr he)))
    (fun _ hq => mem_finals_union.mpr (Or.inr hq)) h

/-- The initial state of a union leads to those of the copies. -/
theorem languageFrom_unionStart (h : A.asLeft.language w ∨ B.asRight.language w) :
    (A.union B).languageFrom (A.unionStart B) w := by
  rcases h with h | h
  · obtain ⟨i, hi, h⟩ := language_iff.mp h
    exact languageFrom_of_mem_edges (mem_edges_union.mpr (Or.inl ⟨i, Or.inl hi, rfl⟩))
      (languageFrom_union_of_left h)
  · obtain ⟨i, hi, h⟩ := language_iff.mp h
    exact languageFrom_of_mem_edges (mem_edges_union.mpr (Or.inl ⟨i, Or.inr hi, rfl⟩))
      (languageFrom_union_of_right h)

/-- Going back along the transitions of a union stays within the words of its states. -/
theorem unionFrom_of_languageFrom (hA : A.Valid) (hB : B.Valid)
    (h : (A.union B).languageFrom q w) : A.unionFrom B q w := by
  have hL := asLeft_valid hA
  have hR := asRight_valid hB
  refine languageFrom_least ?final ?edge h
  case final =>
    intro q hq
    rcases mem_finals_union.mp hq with hq | hq
    · rw [unionFrom_left (hL.final_mem q hq)]
      exact ⟨q, hq, .refl q⟩
    · rw [unionFrom_right (hR.final_mem q hq)]
      exact ⟨q, hq, .refl q⟩
  case edge =>
    intro e he w hw
    rcases mem_edges_union.mp he with ⟨i, hi | hi, rfl⟩ | he | he
    · rw [unionFrom_left (hL.initial_mem i hi)] at hw
      rw [unionFrom_start]
      exact Or.inl ((language_eq_languageFrom hi).mpr hw)
    · rw [unionFrom_right (hR.initial_mem i hi)] at hw
      rw [unionFrom_start]
      exact Or.inr ((language_eq_languageFrom hi).mpr hw)
    · rw [unionFrom_left (hL.target_mem e he)] at hw
      rw [unionFrom_left (hL.source_mem e he)]
      exact languageFrom_of_mem_edges he hw
    · rw [unionFrom_right (hR.target_mem e he)] at hw
      rw [unionFrom_right (hR.source_mem e he)]
      exact languageFrom_of_mem_edges he hw

/-- **What the states of a union mean.** -/
theorem languageFrom_union_iff (hA : A.Valid) (hB : B.Valid) (hq : q ∈ (A.union B).states) :
    (A.union B).languageFrom q w ↔ A.unionFrom B q w := by
  refine ⟨unionFrom_of_languageFrom hA hB, fun h => ?_⟩
  rcases mem_states_union.mp hq with rfl | hq | hq
  · rw [unionFrom_start] at h
    exact languageFrom_unionStart h
  · rw [unionFrom_left hq] at h
    exact languageFrom_union_of_left h
  · rw [unionFrom_right hq] at h
    exact languageFrom_union_of_right h

theorem union_language (hA : A.Valid) (hB : B.Valid) :
    (A.union B).language w ↔ A.language w ∨ B.language w := by
  have hstart : (A.union B).initial = some (A.unionStart B) := rfl
  rw [language_eq_languageFrom hstart,
    languageFrom_union_iff hA hB (mem_states_union.mpr (Or.inl rfl)), unionFrom_start]
  exact or_congr (language_asLeft hA) (language_asRight hB)

theorem size_union (A B : Automaton) : (A.union B).size = A.size + B.size + 1 := by
  show ((A.asLeft.states ∪ B.asRight.states).insert (A.unionStart B)).size = _
  rw [OrderedSet.size_insert (unionStart_not_mem A B), size_copies]

/-- **A union accepts what either automaton accepts**, and has one state more than both. -/
theorem accepts_union_and_size (hA : A.Valid) (hB : B.Valid) :
    (∀ w, (A.union B).accepts w = (A.accepts w || B.accepts w)) ∧
      (A.union B).size = A.size + B.size + 1 := by
  refine ⟨fun w => ?_, size_union A B⟩
  rw [Bool.eq_iff_iff, Bool.or_eq_true, accepts_iff, accepts_iff, accepts_iff]
  exact union_language hA hB

/-- The words of one or more `a`. The names of the states start with the tags of the copies, and
a transition leaves the final state. -/
def someTimes : Automaton where
  states := .ofList [⟨"1_p"⟩, ⟨"2_p"⟩]
  alphabet := .ofList ['a']
  edges := .ofList [⟨⟨"1_p"⟩, .symbol 'a', ⟨"2_p"⟩⟩, ⟨⟨"2_p"⟩, .symbol 'a', ⟨"2_p"⟩⟩]
  initial := some ⟨"1_p"⟩
  finals := .ofList [⟨"2_p"⟩]

theorem accepts_someTimes_singleton : someTimes.accepts ['a'] = true :=
  accepts_iff.mpr ⟨⟨"1_p"⟩, ⟨"2_p"⟩, rfl, by decide, .symbol (by decide) (.refl _)⟩

theorem accepts_someTimes_nil : someTimes.accepts [] = false := by
  have hε : ∀ p q, ⟨p, .epsilon, q⟩ ∉ someTimes.edges := by simp [someTimes]
  rw [← Bool.not_eq_true, accepts_iff, language_eq_languageFrom rfl,
    languageFrom_nil_of_epsilonFree hε]
  decide

/-- The union of an automaton with itself has both copies of its states. -/
theorem union_someTimes_itself :
    (someTimes.union someTimes).accepts ['a'] = true ∧
      (someTimes.union someTimes).accepts [] = false ∧ (someTimes.union someTimes).size = 5 := by
  obtain ⟨haccepts, hsize⟩ := accepts_union_and_size (A := someTimes) (B := someTimes)
    (by decide) (by decide)
  refine ⟨?_, ?_, hsize⟩
  · rw [haccepts, accepts_someTimes_singleton]
    rfl
  · rw [haccepts, accepts_someTimes_nil]
    rfl

/-! ## Concatenation -/

/-- The words that lead from a state of a concatenation to a final state. -/
def concatenateFrom (A B : Automaton) (q : State) : Language :=
  if q ∈ A.asLeft.states then followedBy (A.asLeft.languageFrom q) B.asRight.language
  else B.asRight.languageFrom q

theorem concatenateFrom_left (hq : q ∈ A.asLeft.states) :
    A.concatenateFrom B q = followedBy (A.asLeft.languageFrom q) B.asRight.language := if_pos hq

theorem concatenateFrom_right (hq : q ∈ B.asRight.states) :
    A.concatenateFrom B q = B.asRight.languageFrom q := if_neg (not_mem_states_asLeft hq)

theorem languageFrom_concatenate_of_right (h : B.asRight.languageFrom q w) :
    (A.concatenate B).languageFrom q w :=
  languageFrom_mono (fun _ he => mem_edges_concatenate.mpr (Or.inr (Or.inr he))) (fun _ hq => hq) h

/-- Behind a word that leads to a final state of the left copy follows one of the right one. -/
theorem languageFrom_concatenate_of_left
    (h : followedBy (A.asLeft.languageFrom q) B.asRight.language w) :
    (A.concatenate B).languageFrom q w := by
  obtain ⟨u, v, hu, hv, rfl⟩ := h
  obtain ⟨i, hi, hv⟩ := language_iff.mp hv
  refine languageFrom_append_of_finals
    (fun _ he => mem_edges_concatenate.mpr (Or.inr (Or.inl he))) hu fun f hf => ?_
  exact languageFrom_of_mem_edges (mem_edges_concatenate.mpr (Or.inl ⟨f, hf, i, hi, rfl⟩))
    (languageFrom_concatenate_of_right hv)

/-- Going back along the transitions of a concatenation stays within the words of its states. -/
theorem concatenateFrom_of_languageFrom (hA : A.Valid) (hB : B.Valid)
    (h : (A.concatenate B).languageFrom q w) : A.concatenateFrom B q w := by
  have hL := asLeft_valid hA
  have hR := asRight_valid hB
  refine languageFrom_least ?final ?edge h
  case final =>
    intro q hq
    have hq : q ∈ B.asRight.finals := hq
    rw [concatenateFrom_right (hR.final_mem q hq)]
    exact ⟨q, hq, .refl q⟩
  case edge =>
    intro e he w hw
    rcases mem_edges_concatenate.mp he with ⟨p, hp, i, hi, rfl⟩ | he | he
    · -- the only way from the left copy to the right one
      rw [concatenateFrom_right (hR.initial_mem i hi)] at hw
      rw [concatenateFrom_left (hL.final_mem p hp)]
      exact ⟨[], w, ⟨p, hp, .refl p⟩, (language_eq_languageFrom hi).mpr hw, rfl⟩
    · rw [concatenateFrom_left (hL.target_mem e he)] at hw
      rw [concatenateFrom_left (hL.source_mem e he)]
      exact followedBy_append (fun u hu => languageFrom_of_mem_edges he hu) hw
    · rw [concatenateFrom_right (hR.target_mem e he)] at hw
      rw [concatenateFrom_right (hR.source_mem e he)]
      exact languageFrom_of_mem_edges he hw

/-- **What the states of a concatenation mean.** -/
theorem languageFrom_concatenate_iff (hA : A.Valid) (hB : B.Valid)
    (hq : q ∈ (A.concatenate B).states) :
    (A.concatenate B).languageFrom q w ↔ A.concatenateFrom B q w := by
  refine ⟨concatenateFrom_of_languageFrom hA hB, fun h => ?_⟩
  rcases mem_states_concatenate.mp hq with hq | hq
  · rw [concatenateFrom_left hq] at h
    exact languageFrom_concatenate_of_left h
  · rw [concatenateFrom_right hq] at h
    exact languageFrom_concatenate_of_right h

theorem concatenate_language (hA : A.Valid) (hB : B.Valid) :
    (A.concatenate B).language w ↔ followedBy A.language B.language w := by
  have hstart {i : State} (hi : A.asLeft.initial = some i) :
      (A.concatenate B).languageFrom i w ↔
        followedBy (A.asLeft.languageFrom i) B.asRight.language w := by
    have hmem := (asLeft_valid hA).initial_mem i hi
    rw [languageFrom_concatenate_iff hA hB (mem_states_concatenate.mpr (Or.inl hmem)),
      concatenateFrom_left hmem]
  rw [language_iff]
  constructor
  · rintro ⟨i, hi, h⟩
    obtain ⟨u, v, hu, hv, rfl⟩ := (hstart hi).mp h
    exact ⟨u, v, (language_asLeft hA).mp (language_iff.mpr ⟨i, hi, hu⟩),
      (language_asRight hB).mp hv, rfl⟩
  · rintro ⟨u, v, hu, hv, rfl⟩
    obtain ⟨i, hi, hu⟩ := language_iff.mp ((language_asLeft hA).mpr hu)
    exact ⟨i, hi, (hstart hi).mpr ⟨u, v, hu, (language_asRight hB).mpr hv, rfl⟩⟩

theorem size_concatenate (A B : Automaton) : (A.concatenate B).size = A.size + B.size :=
  size_copies A B

/-- **A concatenation accepts what splits into a word of the first automaton and one of the
second**, and has the states of both. -/
theorem accepts_concatenate_iff_and_size (hA : A.Valid) (hB : B.Valid) :
    (∀ w, (A.concatenate B).accepts w = true ↔
      ∃ u v, A.accepts u = true ∧ B.accepts v = true ∧ u ++ v = w) ∧
      (A.concatenate B).size = A.size + B.size := by
  refine ⟨fun w => ?_, size_concatenate A B⟩
  simp only [accepts_iff]
  exact concatenate_language hA hB

/-- An automaton behind itself has to read a word twice, although it may go on behind its final
state. -/
theorem concatenate_someTimes_itself :
    (someTimes.concatenate someTimes).accepts ['a', 'a'] = true ∧
      (someTimes.concatenate someTimes).accepts ['a'] = false ∧
      (someTimes.concatenate someTimes).size = 4 := by
  obtain ⟨haccepts, hsize⟩ := accepts_concatenate_iff_and_size (A := someTimes) (B := someTimes)
    (by decide) (by decide)
  refine ⟨(haccepts _).mpr ⟨['a'], ['a'], ?_, ?_, rfl⟩, ?_, hsize⟩
  · exact accepts_someTimes_singleton
  · exact accepts_someTimes_singleton
  · rw [← Bool.not_eq_true, haccepts]
    rintro ⟨u, v, hu, hv, h⟩
    -- one of the two words is empty
    rcases List.append_eq_singleton_iff.mp h with ⟨rfl, -⟩ | ⟨-, rfl⟩
    · exact absurd hu (by rw [accepts_someTimes_nil]; simp)
    · exact absurd hv (by rw [accepts_someTimes_nil]; simp)

end Automaton

end RegularLanguages
