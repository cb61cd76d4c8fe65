import RegularLanguages.Proofs.Automaton.Minimization
import RegularLanguages.Proofs.Automaton.Nerode

/-!
# Checking minimality

The check looks at the Nerode partition, which is one of the states of the completed automaton.
Completion changes the meaning of no state and its sink is none of the states that are counted, so
the check is about the states of the automaton as it is, where a missing transition rejects. A
complete automaton that passes has nothing to be removed, added or merged, so minimization leaves it
as it is; whatever minimization returns is such an automaton.

Results:
* `size_accessible_eq_iff`: whether all states are accessible.
* `classes_small_iff`: whether two states of the automaton share a class.
* **`isMinimal_iff`**, **`minimize_eq_self_iff`**: which automata pass, and which are left as
  they are.
* **`isMinimal_iff_and_minimize_eq_self_iff`**: both, and minimizing twice.
-/

namespace RegularLanguages.Automaton

variable {A : Automaton} {p q : State}

/-! ## What the check looks at -/

/-- All states are accessible iff there are as many accessible states as states. -/
theorem size_accessible_eq_iff (hA : A.Valid) :
    A.accessible.size = A.size ↔ ∀ q ∈ A.states, A.Accessible q := by
  have hsub : ∀ q ∈ A.accessible, q ∈ A.states := fun q hq =>
    (mem_accessible.mp hq).mem_states hA
  constructor
  · intro hsize q hq
    have hlist := (OrderedSet.toList_sublist hsub).eq_of_length hsize
    exact mem_accessible.mp (OrderedSet.ext_toList hlist ▸ hq)
  · intro h
    have hall : A.accessible = A.states := OrderedSet.ext_mem fun q =>
      ⟨hsub q, fun hq => mem_accessible.mpr (h q hq)⟩
    rw [hall]
    rfl

/-- The states of a deterministic automaton mean the same in the completed one. -/
theorem equivalent_complete_iff (hA : A.Valid) (hAd : A.Deterministic) :
    A.complete.Equivalent p q ↔ A.Equivalent p q := by
  rw [complete_of_deterministic hAd]
  exact forall_congr' fun w =>
    iff_congr (withSink_languageFrom hA p w) (withSink_languageFrom hA q w)

/-- Every class has at most one state of the automaton iff no two of these mean the same. -/
theorem classes_small_iff (hA : A.Valid) (hAd : A.Deterministic) :
    (∀ s ∈ A.nerodePartition.classes, (s.filter (· ∈ A.states)).size ≤ 1) ↔ A.Separated := by
  have hmem {q : State} (hq : q ∈ A.states) : q ∈ A.complete.states := by
    rw [complete_of_deterministic hAd]
    exact mem_states_withSink hq
  have hclass {p q : State} (hp : p ∈ A.states) (hq : q ∈ A.states) :
      (∃ s ∈ A.nerodePartition.classes, p ∈ s ∧ q ∈ s) ↔ A.Equivalent p q := by
    rw [exists_class_iff_equivalent hA (hmem hp) (hmem hq), equivalent_complete_iff hA hAd]
  simp only [OrderedSet.size_le_one_iff, OrderedSet.mem_filter, decide_eq_true_eq]
  constructor
  · intro h p hp q hq hpq
    obtain ⟨s, hs, hps, hqs⟩ := (hclass hp hq).mpr hpq
    exact h s hs p ⟨hps, hp⟩ q ⟨hqs, hq⟩
  · rintro hsep s hs p ⟨hps, hp⟩ q ⟨hqs, hq⟩
    exact hsep p hp q hq ((hclass hp hq).mp ⟨s, hs, hps, hqs⟩)

/-! ## Which automata are minimal -/

/-- **The check**: deterministic, with an initial state, all states accessible, and no two of them
with the same meaning. -/
theorem isMinimal_iff (hA : A.Valid) : A.isMinimal = true ↔
    A.Deterministic ∧ A.initial.isSome = true ∧ (∀ q ∈ A.states, A.Accessible q) ∧
      A.Separated := by
  simp only [isMinimal, Bool.and_eq_true, List.all_eq_true, decide_eq_true_eq, and_assoc,
    isDeterministic_iff, size_accessible_eq_iff hA]
  refine and_congr_right fun hAd => and_congr_right fun _ => and_congr_right fun _ => ?_
  exact classes_small_iff hA hAd

theorem separated_iff : A.Separated ↔ ∀ p ∈ A.states, ∀ q ∈ A.states, p ≠ q →
    ∃ w, ¬ (A.languageFrom p w ↔ A.languageFrom q w) := by
  refine ⟨fun h p hp q hq => h.exists_word hp hq, fun h p hp q hq hpq => ?_⟩
  by_contra hne
  obtain ⟨w, hw⟩ := h p hp q hq hne
  exact hw (hpq w)

/-! ## What minimization leaves as it is -/

/-- An automaton that is complete and minimal is left as it is by every step. -/
theorem minimize_eq_self (hA : A.Valid) (hmin : A.isMinimal = true) (hc : A.Complete) :
    A.minimize = A := by
  obtain ⟨hAd, hi, hacc, hsep⟩ := (isMinimal_iff hA).mp hmin
  have hreduced : A.reduced = A := by
    rw [reduced, if_pos (isDeterministic_iff.mpr hAd)]
    exact within_eq_self hA fun q hq => mem_accessible.mpr (hacc q hq)
  have hcomplete : A.complete = A := by
    rw [complete_of_deterministic hAd, withSink_eq_self hc]
  rcases minimize_cases A with ⟨hnone, -⟩ | ⟨-, h⟩
  · rw [hnone] at hi
    exact absurd hi (by simp)
  · rw [h, hreduced, hcomplete, merged_eq_self ⟨hA, hAd, hc⟩ hsep]

/-- What minimization returns passes the check. -/
theorem isMinimal_minimize (hA : A.Valid) : A.minimize.isMinimal = true := by
  have htotal := minimize_total hA
  refine (isMinimal_iff htotal.valid).mpr ⟨htotal.deterministic, ?_,
    fun q => minimize_accessible hA, minimize_separated hA⟩
  exact Option.isSome_iff_exists.mpr (exists_initial_minimize hA)

theorem minimize_eq_self_iff (hA : A.Valid) :
    A.minimize = A ↔ A.isMinimal = true ∧ A.isComplete = true := by
  constructor
  · intro h
    have hmin := isMinimal_minimize hA
    have hc := (minimize_total hA).complete
    rw [h] at hmin hc
    exact ⟨hmin, isComplete_iff.mpr hc⟩
  · rintro ⟨hmin, hc⟩
    exact minimize_eq_self hA hmin (isComplete_iff.mp hc)

/-- **Minimality.** An automaton passes the check iff it is deterministic with an initial state, all
its states are accessible, and for any two of them some word leads from exactly one to a final
state. Minimization leaves exactly those automata as they are that pass and are complete, so doing
it twice is doing it once. -/
theorem isMinimal_iff_and_minimize_eq_self_iff (hA : A.Valid) :
    (A.isMinimal = true ↔
      A.Deterministic ∧ A.initial.isSome = true ∧ (∀ q ∈ A.states, A.Accessible q) ∧
        ∀ p ∈ A.states, ∀ q ∈ A.states, p ≠ q →
          ∃ w, ¬ (A.languageFrom p w ↔ A.languageFrom q w)) ∧
    (A.minimize = A ↔ A.isMinimal = true ∧ A.isComplete = true) ∧
    A.minimize.minimize = A.minimize := by
  refine ⟨?_, minimize_eq_self_iff hA, ?_⟩
  · rw [← separated_iff]
    exact isMinimal_iff hA
  · exact minimize_eq_self (minimize_total hA).valid (isMinimal_minimize hA)
      (minimize_total hA).complete

/-- A partial automaton with a state that accepts nothing may pass the check, although this state
and the sink of completion mean the same. As it is not complete, minimization changes it. -/
theorem isMinimal_of_partial :
    let A : Automaton :=
      { states := .ofList [⟨"p"⟩, ⟨"end"⟩, ⟨"dead"⟩]
        alphabet := .ofList ['a', 'b']
        edges := .ofList [⟨⟨"p"⟩, .symbol 'a', ⟨"end"⟩⟩, ⟨⟨"p"⟩, .symbol 'b', ⟨"dead"⟩⟩]
        initial := some ⟨"p"⟩
        finals := .ofList [⟨"end"⟩] }
    A.Valid ∧ A.isMinimal = true ∧ A.minimize ≠ A := by
  intro A
  have hA : A.Valid := by decide
  have hAd : A.Deterministic := isDeterministic_iff.mp (by decide)
  have hstate {q : State} (hq : q ∈ A.states) : q = ⟨"p"⟩ ∨ q = ⟨"end"⟩ ∨ q = ⟨"dead"⟩ := by
    simpa [A] using hq
  have hstart : A.Accessible ⟨"p"⟩ := accessible_initial rfl
  have hnil (q : State) : A.languageFrom q [] ↔ q = ⟨"end"⟩ := by
    rw [languageFrom_nil hAd]
    simp [A]
  have ha (q : State) : A.languageFrom q ['a'] ↔ q = ⟨"p"⟩ := by
    simp only [languageFrom_cons_of_epsilonFree hAd.not_epsilon, hnil, exists_eq_right]
    simp [A]
  have hmin : A.isMinimal = true := by
    refine (isMinimal_iff_and_minimize_eq_self_iff hA).1.mpr
      ⟨hAd, rfl, fun q hq => ?_, fun p hp q hq hpq => ?_⟩
    · rcases hstate hq with rfl | rfl | rfl
      · exact hstart
      · exact hstart.path (.symbol (c := 'a') (by decide) (.refl _))
      · exact hstart.path (.symbol (c := 'b') (by decide) (.refl _))
    · by_contra hagree
      rw [not_exists] at hagree
      have hnil' := not_not.mp (hagree [])
      have ha' := not_not.mp (hagree ['a'])
      rw [hnil, hnil] at hnil'
      rw [ha, ha] at ha'
      rcases hstate hp with rfl | rfl | rfl
      · exact hpq (ha'.mp rfl).symm
      · exact hpq (hnil'.mp rfl).symm
      · rcases hstate hq with rfl | rfl | rfl
        · exact absurd (ha'.mpr rfl) (by decide)
        · exact absurd (hnil'.mpr rfl) (by decide)
        · exact hpq rfl
  refine ⟨hA, hmin, fun h => ?_⟩
  have hc := ((isMinimal_iff_and_minimize_eq_self_iff hA).2.1.mp h).2
  exact absurd hc (by decide)

end RegularLanguages.Automaton
