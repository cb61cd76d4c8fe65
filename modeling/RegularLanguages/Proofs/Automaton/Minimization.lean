import RegularLanguages.Proofs.Automaton.Merging
import RegularLanguages.Proofs.Automaton.Reachability

/-!
# The minimal automaton is minimal

Minimization first makes the automaton deterministic and accessible (`reduced`), then completes
it and merges the states that mean the same. Without initial state nothing is left to merge, and
the answer is the automaton with one state that rejects every word.

Results:
* `reduced_language`, `reduced_accessible`: what the first step keeps and what it establishes;
  `complete_reduced_languageFrom`: accessible states of a deterministic automaton keep their meaning.
* `minimize_total`, `minimize_language`, `minimize_accessible`, `minimize_separated`: the four
  facts about the minimal automaton from which the others follow.
* **`minimize_minimalFor`**: the minimal automaton accepts the same words, and no complete
  deterministic automaton that does so has fewer states; its states are the least members of
  the classes that are merged.
-/

namespace RegularLanguages

namespace Automaton

variable {A : Automaton}

/-! ## Automata that reject every word -/

section Rejecting

variable {alphabet : OrderedSet Char} {q : State}

theorem mem_states_rejecting {p : State} : p ∈ (rejecting alphabet q).states ↔ p = q := by
  rw [rejecting, OrderedSet.mem_ofList, List.mem_singleton]

theorem mem_edges_rejecting {e : Edge} :
    e ∈ (rejecting alphabet q).edges ↔ ∃ c ∈ alphabet, e = ⟨q, .symbol c, q⟩ := by
  simp only [rejecting, OrderedSet.mem_ofList, List.mem_map, OrderedSet.mem_toList,
    eq_comm (b := e)]

theorem rejecting_total (h : epsilonChar ∉ alphabet) : (rejecting alphabet q).Total where
  valid := {
    initial_mem := fun p hp => mem_states_rejecting.mpr (Option.some.inj hp).symm
    final_mem := fun p hp => absurd hp (OrderedSet.not_mem_empty p)
    source_mem := fun e he => by
      obtain ⟨_, _, rfl⟩ := mem_edges_rejecting.mp he
      exact mem_states_rejecting.mpr rfl
    target_mem := fun e he => by
      obtain ⟨_, _, rfl⟩ := mem_edges_rejecting.mp he
      exact mem_states_rejecting.mpr rfl
    label_mem := fun e he c hc => by
      obtain ⟨d, hd, rfl⟩ := mem_edges_rejecting.mp he
      cases hc
      exact hd
    epsilon_not_mem := h }
  deterministic := by
    refine ⟨fun p r he => ?_, fun {p a r r'} he he' => ?_⟩
    · obtain ⟨_, _, he⟩ := mem_edges_rejecting.mp he
      exact absurd (congrArg Edge.label he) (by simp)
    · obtain ⟨_, _, he⟩ := mem_edges_rejecting.mp he
      obtain ⟨_, _, he'⟩ := mem_edges_rejecting.mp he'
      exact (congrArg Edge.target he).trans (congrArg Edge.target he').symm
  complete := fun p hp c hc => by
    rw [mem_states_rejecting.mp hp]
    exact ⟨q, mem_edges_rejecting.mpr ⟨c, hc, rfl⟩⟩

theorem not_language_rejecting (w : Word) : ¬ (rejecting alphabet q).language w := by
  rintro ⟨_, p, _, hp, _⟩
  exact OrderedSet.not_mem_empty p hp

theorem rejecting_accessible {p : State} (hp : p ∈ (rejecting alphabet q).states) :
    (rejecting alphabet q).Accessible p := by
  rw [mem_states_rejecting.mp hp]
  exact accessible_initial rfl

theorem rejecting_separated : (rejecting alphabet q).Separated := by
  intro p hp r hr _
  rw [mem_states_rejecting.mp hp, mem_states_rejecting.mp hr]

end Rejecting

/-! ## What is merged -/

/-- The deterministic automaton with accessible states only that minimization starts from. -/
def reduced (A : Automaton) : Automaton :=
  if A.isDeterministic then A.withoutUnreachable else A.determinize

theorem reduced_cases (A : Automaton) :
    (A.Deterministic ∧ A.reduced = A.withoutUnreachable) ∨ A.reduced = A.determinize := by
  unfold reduced
  split
  · rename_i h
    exact Or.inl ⟨isDeterministic_iff.mp h, rfl⟩
  · exact Or.inr rfl

theorem reduced_valid (hA : A.Valid) : A.reduced.Valid := by
  rcases reduced_cases A with ⟨_, h⟩ | h
  · rw [h]
    exact within_valid hA
  · rw [h]
    exact determinize_valid hA

theorem reduced_deterministic (hA : A.Valid) : A.reduced.Deterministic := by
  rcases reduced_cases A with ⟨hAd, h⟩ | h
  · rw [h]
    exact within_deterministic hAd
  · rw [h]
    exact determinize_deterministic hA

theorem reduced_accessible (hA : A.Valid) {q : State} (hq : q ∈ A.reduced.states) :
    A.reduced.Accessible q := by
  rcases reduced_cases A with ⟨_, h⟩ | h
  · rw [h] at hq ⊢
    exact withoutUnreachable_accessible hq
  · rw [h] at hq ⊢
    exact determinize_accessible hA hq

theorem reduced_language (hA : A.Valid) (w : Word) : A.reduced.language w ↔ A.language w := by
  rcases reduced_cases A with ⟨_, h⟩ | h
  · rw [h]
    exact withoutUnreachable_language w
  · rw [h]
    exact determinize_language hA w

@[simp] theorem alphabet_reduced (A : Automaton) : A.reduced.alphabet = A.alphabet := by
  rcases reduced_cases A with ⟨_, h⟩ | h
  · rw [h]
    rfl
  · rw [h, alphabet_determinize]

theorem isSome_initial_reduced (A : Automaton) :
    A.reduced.initial.isSome = A.initial.isSome := by
  rcases reduced_cases A with ⟨_, h⟩ | h
  · rw [h, isSome_initial_withoutUnreachable]
  · rw [h, isSome_initial_determinize]

/-- The automaton whose states are merged is accessible and means the same as the given one. -/
theorem complete_reduced_eq (hA : A.Valid) : A.reduced.complete = A.reduced.withSink :=
  complete_of_deterministic (reduced_deterministic hA)

theorem complete_reduced_total (hA : A.Valid) : A.reduced.complete.Total :=
  complete_total (reduced_valid hA)

theorem complete_reduced_accessible (hA : A.Valid) {q : State}
    (hq : q ∈ A.reduced.complete.states) : A.reduced.complete.Accessible q := by
  rw [complete_reduced_eq hA] at hq ⊢
  exact withSink_accessible (fun _ => reduced_accessible hA) hq

theorem complete_reduced_language (hA : A.Valid) (w : Word) :
    A.reduced.complete.language w ↔ A.language w :=
  (complete_language (reduced_valid hA) w).trans (reduced_language hA w)

theorem reduced_of_deterministic (hAd : A.Deterministic) : A.reduced = A.withoutUnreachable := by
  rw [reduced, if_pos (isDeterministic_iff.mpr hAd)]

/-- The accessible states of a deterministic automaton keep their meaning. -/
theorem complete_reduced_languageFrom (hA : A.Valid) (hAd : A.Deterministic) {p : State}
    (hp : A.Accessible p) (w : Word) :
    A.reduced.complete.languageFrom p w ↔ A.languageFrom p w := by
  rw [complete_reduced_eq hA, withSink_languageFrom (reduced_valid hA),
    reduced_of_deterministic hAd]
  exact withoutUnreachable_languageFrom hp w

/-! ## The minimal automaton -/

/-- Minimization merges the states of the reduced automaton, unless it has no initial state. -/
theorem minimize_cases (A : Automaton) :
    (A.initial = none ∧ A.minimize = rejecting A.alphabet ⟨"q0"⟩) ∨
      (A.initial.isSome = true ∧ A.minimize = A.reduced.complete.merged) := by
  have hm : A.minimize = if A.reduced.initial.isNone then rejecting A.alphabet ⟨"q0"⟩
    else A.reduced.complete.merged := rfl
  have hi := isSome_initial_reduced A
  rw [hm]
  cases hr : A.reduced.initial with
  | none =>
    rw [hr] at hi
    exact Or.inl ⟨Option.isSome_eq_false_iff.mp hi.symm |> Option.isNone_iff_eq_none.mp, rfl⟩
  | some i =>
    rw [hr] at hi
    exact Or.inr ⟨hi.symm, rfl⟩

theorem minimize_total (hA : A.Valid) : A.minimize.Total := by
  rcases minimize_cases A with ⟨_, h⟩ | ⟨_, h⟩
  · rw [h]
    exact rejecting_total hA.epsilon_not_mem
  · rw [h]
    exact merged_total (complete_reduced_total hA)

theorem minimize_language (hA : A.Valid) (w : Word) : A.minimize.language w ↔ A.language w := by
  rcases minimize_cases A with ⟨hi, h⟩ | ⟨_, h⟩
  · rw [h]
    exact iff_of_false (not_language_rejecting w) (not_language_of_initial_eq_none hi w)
  · rw [h, merged_language (complete_reduced_total hA)]
    exact complete_reduced_language hA w

theorem minimize_accessible (hA : A.Valid) {q : State} (hq : q ∈ A.minimize.states) :
    A.minimize.Accessible q := by
  rcases minimize_cases A with ⟨_, h⟩ | ⟨_, h⟩
  · rw [h] at hq ⊢
    exact rejecting_accessible hq
  · rw [h] at hq ⊢
    exact merged_accessible (complete_reduced_total hA)
      (fun _ => complete_reduced_accessible hA) hq

theorem minimize_separated (hA : A.Valid) : A.minimize.Separated := by
  rcases minimize_cases A with ⟨_, h⟩ | ⟨_, h⟩
  · rw [h]
    exact rejecting_separated
  · rw [h]
    exact merged_separated (complete_reduced_total hA)

@[simp] theorem alphabet_minimize (A : Automaton) : A.minimize.alphabet = A.alphabet := by
  rcases minimize_cases A with ⟨_, h⟩ | ⟨_, h⟩
  · rw [h]
    rfl
  · rw [h, alphabet_merged, alphabet_complete, alphabet_reduced]

theorem exists_initial_minimize (hA : A.Valid) : ∃ i, A.minimize.initial = some i := by
  rcases minimize_cases A with ⟨_, h⟩ | ⟨hi, h⟩
  · rw [h]
    exact ⟨_, rfl⟩
  · rw [h, initial_merged, complete_reduced_eq hA, initial_withSink]
    rw [← isSome_initial_reduced, Option.isSome_iff_exists] at hi
    obtain ⟨i, hi⟩ := hi
    exact ⟨_, by rw [hi]; rfl⟩

/-! ## Minimality -/

/-- `M` is a minimal complete deterministic automaton for the words that `A` accepts. -/
structure MinimalFor (M A : Automaton) : Prop where
  valid : M.Valid
  alphabet_eq : M.alphabet = A.alphabet
  accepts_eq : ∀ w, M.accepts w = A.accepts w
  isDeterministic : M.isDeterministic = true
  isComplete : M.isComplete = true
  initial_isSome : M.initial.isSome = true
  accessible : ∀ q ∈ M.states, M.Accessible q
  separated : ∀ p ∈ M.states, ∀ q ∈ M.states, p ≠ q →
    ∃ w, ¬ (M.languageFrom p w ↔ M.languageFrom q w)
  size_le : ∀ B : Automaton, B.Valid → B.isDeterministic = true → B.isComplete = true →
    B.initial.isSome = true → B.alphabet = A.alphabet → (∀ w, B.accepts w = A.accepts w) →
      M.size ≤ B.size

/-- The state is the least one among the states with its meaning. -/
def LeastOfClass (D : Automaton) (m : State) : Prop :=
  m ∈ D.states ∧ ∀ p ∈ D.states, D.Equivalent p m → (compare m p).isLE = true

/-! ## An automaton with states to merge -/

/-- The words over `a` and `b` that end with `a`. -/
def EndsWithA : Word → Prop
  | [] => False
  | c :: w => c = 'a' ∧ (w = [] ∨ EndsWithA w) ∨ c = 'b' ∧ EndsWithA w

instance decidableEndsWithA : DecidablePred EndsWithA
  | [] => isFalse id
  | c :: w =>
    have := decidableEndsWithA w
    inferInstanceAs (Decidable (c = 'a' ∧ (w = [] ∨ EndsWithA w) ∨ c = 'b' ∧ EndsWithA w))

/-- A deterministic automaton for the words that end with `a`. The states `y` and `z` mean the
same, no transition leads to `u`, and the other states have none on `c`. -/
def endingWithA : Automaton where
  states := .ofList [⟨"u"⟩, ⟨"x"⟩, ⟨"y"⟩, ⟨"z"⟩]
  alphabet := .ofList ['a', 'b', 'c']
  edges := .ofList [⟨⟨"x"⟩, .symbol 'a', ⟨"y"⟩⟩, ⟨⟨"x"⟩, .symbol 'b', ⟨"x"⟩⟩,
    ⟨⟨"y"⟩, .symbol 'a', ⟨"z"⟩⟩, ⟨⟨"y"⟩, .symbol 'b', ⟨"x"⟩⟩,
    ⟨⟨"z"⟩, .symbol 'a', ⟨"y"⟩⟩, ⟨⟨"z"⟩, .symbol 'b', ⟨"x"⟩⟩, ⟨⟨"u"⟩, .symbol 'c', ⟨"x"⟩⟩]
  initial := some ⟨"x"⟩
  finals := .ofList [⟨"y"⟩, ⟨"z"⟩]

theorem endingWithA_valid : endingWithA.Valid := by decide

theorem endingWithA_deterministic : endingWithA.Deterministic := isDeterministic_iff.mp (by decide)

theorem mem_edges_endingWithA {p q : State} {c : Char} : ⟨p, .symbol c, q⟩ ∈ endingWithA.edges ↔
    p = ⟨"x"⟩ ∧ c = 'a' ∧ q = ⟨"y"⟩ ∨ p = ⟨"x"⟩ ∧ c = 'b' ∧ q = ⟨"x"⟩ ∨
      p = ⟨"y"⟩ ∧ c = 'a' ∧ q = ⟨"z"⟩ ∨ p = ⟨"y"⟩ ∧ c = 'b' ∧ q = ⟨"x"⟩ ∨
        p = ⟨"z"⟩ ∧ c = 'a' ∧ q = ⟨"y"⟩ ∨ p = ⟨"z"⟩ ∧ c = 'b' ∧ q = ⟨"x"⟩ ∨
          p = ⟨"u"⟩ ∧ c = 'c' ∧ q = ⟨"x"⟩ := by
  simp [endingWithA]

theorem languageFrom_endingWithA (w : Word) :
    (endingWithA.languageFrom ⟨"x"⟩ w ↔ EndsWithA w) ∧
      (endingWithA.languageFrom ⟨"y"⟩ w ↔ w = [] ∨ EndsWithA w) ∧
      (endingWithA.languageFrom ⟨"z"⟩ w ↔ w = [] ∨ EndsWithA w) := by
  induction w with
  | nil =>
    simp only [languageFrom_nil endingWithA_deterministic, EndsWithA]
    decide
  | cons c w ih =>
    obtain ⟨hx, hy, hz⟩ := ih
    simp [languageFrom_cons_of_epsilonFree endingWithA_deterministic.not_epsilon,
      mem_edges_endingWithA, EndsWithA, or_and_right, exists_or, and_assoc, hx, hy, hz]

theorem accessible_endingWithA {q : State} :
    endingWithA.Accessible q ↔ q = ⟨"x"⟩ ∨ q = ⟨"y"⟩ ∨ q = ⟨"z"⟩ := by
  constructor
  · rintro ⟨i, w, hi, h⟩
    obtain rfl := Option.some.inj hi
    refine h.invariant (P := fun q => q = ⟨"x"⟩ ∨ q = ⟨"y"⟩ ∨ q = ⟨"z"⟩) ?_ (Or.inl rfl)
    decide
  · have hx : endingWithA.Accessible ⟨"x"⟩ := accessible_initial rfl
    have hy : endingWithA.Accessible ⟨"y"⟩ := hx.path (.symbol (c := 'a') (by decide) (.refl _))
    rintro (rfl | rfl | rfl)
    · exact hx
    · exact hy
    · exact hy.path (.symbol (c := 'a') (by decide) (.refl _))

theorem mem_states_reduced_endingWithA {q : State} :
    q ∈ endingWithA.reduced.states ↔ q = ⟨"x"⟩ ∨ q = ⟨"y"⟩ ∨ q = ⟨"z"⟩ := by
  rw [reduced_of_deterministic endingWithA_deterministic, ← accessible_endingWithA]
  refine mem_states_within.trans (and_congr_right' mem_accessible |>.trans ?_)
  exact and_iff_right_of_imp fun hq => hq.mem_states endingWithA_valid

theorem addsSink_endingWithA :
    endingWithA.reduced.AddsSink endingWithA.reduced.complete ⟨"sink"⟩ := by
  have hgap : (⟨"x"⟩, 'c') ∈ endingWithA.reduced.gaps := by
    refine mem_gaps.mpr ⟨mem_states_reduced_endingWithA.mpr (Or.inl rfl), ?_, fun q he => ?_⟩
    · rw [alphabet_reduced]
      decide
    · rw [reduced_of_deterministic endingWithA_deterministic] at he
      exact absurd (mem_edges_endingWithA.mp (mem_edges_within.mp he).1) (by simp)
  have hname : endingWithA.reduced.sinkName = ⟨"sink"⟩ :=
    sinkName_of_not_mem (mt mem_states_reduced_endingWithA.mp (by decide))
  rw [complete_reduced_eq endingWithA_valid, ← hname]
  exact addsSink_withSink (List.ne_nil_of_mem hgap)

theorem languageFrom_complete_reduced_endingWithA (w : Word) :
    (endingWithA.reduced.complete.languageFrom ⟨"x"⟩ w ↔ EndsWithA w) ∧
      (endingWithA.reduced.complete.languageFrom ⟨"y"⟩ w ↔ w = [] ∨ EndsWithA w) ∧
      (endingWithA.reduced.complete.languageFrom ⟨"z"⟩ w ↔ w = [] ∨ EndsWithA w) := by
  have hkept {p : State} (hp : p = ⟨"x"⟩ ∨ p = ⟨"y"⟩ ∨ p = ⟨"z"⟩) :=
    complete_reduced_languageFrom endingWithA_valid endingWithA_deterministic
      (accessible_endingWithA.mpr hp) w
  rw [hkept (by simp), hkept (by simp), hkept (by simp)]
  exact languageFrom_endingWithA w

/-- Of `y` and `z`, which mean the same, `y` is the least one. -/
theorem leastOfClass_endingWithA {m : State} :
    endingWithA.reduced.complete.LeastOfClass m ↔ m = ⟨"x"⟩ ∨ m = ⟨"y"⟩ ∨ m = ⟨"sink"⟩ := by
  have hmem {q : State} : q ∈ endingWithA.reduced.complete.states ↔
      q = ⟨"sink"⟩ ∨ q = ⟨"x"⟩ ∨ q = ⟨"y"⟩ ∨ q = ⟨"z"⟩ :=
    (addsSink_endingWithA.mem_states q).trans (or_congr_right mem_states_reduced_endingWithA)
  have hsink := addsSink_endingWithA.not_languageFrom_sink (reduced_valid endingWithA_valid)
  obtain ⟨hx, hy, hz⟩ := forall_and.mp languageFrom_complete_reduced_endingWithA |>.imp_right
    forall_and.mp
  constructor
  · rintro ⟨hm, hleast⟩
    rcases hmem.mp hm with rfl | rfl | rfl | rfl
    · exact Or.inr (Or.inr rfl)
    · exact Or.inl rfl
    · exact Or.inr (Or.inl rfl)
    · have hyz := hleast ⟨"y"⟩ (hmem.mpr (by simp)) fun w => (hy w).trans (hz w).symm
      exact absurd hyz (by decide)
  · -- the empty word tells `y` and `z` from the other states, and `a` tells `x` from the sink
    rintro (rfl | rfl | rfl)
    · refine ⟨hmem.mpr (by simp), fun p hp _ => ?_⟩
      rcases hmem.mp hp with rfl | rfl | rfl | rfl <;> decide
    · refine ⟨hmem.mpr (by simp), fun p hp hpy => ?_⟩
      have hnil := (hpy []).mpr ((hy []).mpr (Or.inl rfl))
      rcases hmem.mp hp with rfl | rfl | rfl | rfl
      · exact absurd hnil (hsink [])
      · exact absurd ((hx []).mp hnil) id
      · decide
      · decide
    · refine ⟨hmem.mpr (by simp), fun p hp hpsink => ?_⟩
      have hnone (w : Word) : ¬ endingWithA.reduced.complete.languageFrom p w :=
        mt (hpsink w).mp (hsink w)
      rcases hmem.mp hp with rfl | rfl | rfl | rfl
      · decide
      · exact absurd ((hx ['a']).mpr (by decide)) (hnone ['a'])
      · exact absurd ((hy []).mpr (Or.inl rfl)) (hnone [])
      · exact absurd ((hz []).mpr (Or.inl rfl)) (hnone [])

theorem mem_states_minimize_endingWithA {m : State} :
    m ∈ endingWithA.minimize.states ↔ m = ⟨"x"⟩ ∨ m = ⟨"y"⟩ ∨ m = ⟨"sink"⟩ := by
  rcases minimize_cases endingWithA with ⟨hi, -⟩ | ⟨-, h⟩
  · exact absurd hi (by decide)
  · rw [h, mem_states_merged_iff_least (complete_reduced_total endingWithA_valid)]
    exact leastOfClass_endingWithA

theorem size_minimize_endingWithA : endingWithA.minimize.size = 3 := by
  have hstates : endingWithA.minimize.states = .ofList [⟨"x"⟩, ⟨"y"⟩, ⟨"sink"⟩] := by
    refine OrderedSet.ext_mem fun m => mem_states_minimize_endingWithA.trans ?_
    simp
  rw [size, hstates]
  decide

theorem accepts_endingWithA (w : Word) : endingWithA.accepts w = decide (EndsWithA w) := by
  rw [Bool.eq_iff_iff, accepts_iff, decide_eq_true_eq, language_eq_languageFrom (p := ⟨"x"⟩) rfl]
  exact (languageFrom_endingWithA w).1

/-! ## The minimal automaton is minimal -/

/-- **The minimal automaton is minimal.** With an initial state, its states are the least
members of the classes of the completed reduced automaton, each with the meaning of its
class. -/
theorem minimize_minimalFor (hA : A.Valid) :
    A.minimize.MinimalFor A ∧
      (A.initial.isSome = true → ∀ m,
        (m ∈ A.minimize.states ↔ A.reduced.complete.LeastOfClass m) ∧
        (m ∈ A.minimize.states → ∀ w,
          (A.minimize.languageFrom m w ↔ A.reduced.complete.languageFrom m w))) := by
  have htotal := minimize_total hA
  have haccepts (w : Word) : A.minimize.accepts w = A.accepts w :=
    accepts_eq_iff.mpr (minimize_language hA w)
  constructor
  · refine ⟨htotal.valid, alphabet_minimize A, haccepts,
      isDeterministic_iff.mpr htotal.deterministic, isComplete_iff.mpr htotal.complete,
      Option.isSome_iff_exists.mpr (exists_initial_minimize hA),
      fun _ => minimize_accessible hA,
      fun p hp q hq hpq => (minimize_separated hA).exists_word hp hq hpq, ?_⟩
    intro B hB hBd hBc hBi halph hlang
    obtain ⟨j, hj⟩ := Option.isSome_iff_exists.mp hBi
    refine size_le_of_separated htotal.valid htotal.deterministic
      (fun _ => minimize_accessible hA) (minimize_separated hA)
      ⟨hB, isDeterministic_iff.mp hBd, isComplete_iff.mp hBc⟩ ?_ (fun w => ?_) hj
    · rw [alphabet_minimize, halph]
    · rw [← accepts_eq_iff, haccepts, hlang]
  · intro hi m
    have hD := complete_reduced_total hA
    rcases minimize_cases A with ⟨hn, _⟩ | ⟨_, h⟩
    · rw [hn] at hi
      exact absurd hi (by simp)
    · rw [h]
      refine ⟨mem_states_merged_iff_least hD, fun hm w => ?_⟩
      obtain ⟨hmD, hl⟩ := mem_states_of_merged hD hm
      have := merged_languageFrom hD hmD (w := w)
      rwa [hl] at this

/-- The states `y` and `z` are merged, `u` is removed, and the transitions on `c` lead to a sink. -/
theorem minimize_endingWithA_minimalFor :
    endingWithA.minimize.MinimalFor endingWithA ∧
      (∀ m, m ∈ endingWithA.minimize.states ↔ m = ⟨"x"⟩ ∨ m = ⟨"y"⟩ ∨ m = ⟨"sink"⟩) ∧
      endingWithA.minimize.accepts ['b', 'a'] = true ∧
      endingWithA.minimize.accepts ['c', 'a'] = false := by
  obtain ⟨hmin, hleast⟩ := minimize_minimalFor endingWithA_valid
  refine ⟨hmin, fun m => (hleast rfl m).1.trans leastOfClass_endingWithA, ?_, ?_⟩
  · rw [hmin.accepts_eq, accepts_endingWithA]
    decide
  · rw [hmin.accepts_eq, accepts_endingWithA]
    decide

end Automaton

end RegularLanguages
