import RegularLanguages.Proofs.Automaton.Boolean

/-!
# The states of a product are pairs of states

The product of two automata in terms of their paths, without the removal of transitions on the
empty word, the search, the table of names and the fuel: a pair of states is reached if both are
initial, or if paths that spell one symbol lead to them from a pair that is reached
(`ReachablePair`). A product has one state for each of these pairs. Whatever the states of the two
automata are called, different pairs are different states, also where the names that are
suggested for them coincide. Where an operand has no initial state there are no such pairs.

Results:
* `reaches_productMoves_iff`: the vertices of the search are the pairs that are reached.
* `ProductAutomaton.languageFrom_name`: a pair means what both of its states mean.
* `intersection_language`: the words that both automata accept.
* **`exists_productAutomaton_intersection`**: what the product is.
-/

namespace RegularLanguages.Automaton

variable {A B C : Automaton} {p q p' q' : State} {c : Char}

/-! ## Pairs that are reached -/

/-- The pairs of states to which one word leads, symbol by symbol, from the initial states. -/
inductive ReachablePair (A B : Automaton) : State × State → Prop
  | start {p q : State} : A.initial = some p → B.initial = some q → ReachablePair A B (p, q)
  | move {p q p' q' : State} {c : Char} : ReachablePair A B (p, q) → A.Path p [c] p' →
      B.Path q [c] q' → ReachablePair A B (p', q')

theorem not_reachablePair_of_initial_eq_none (h : A.initial = none ∨ B.initial = none)
    (v : State × State) : ¬ A.ReachablePair B v := by
  intro hv
  induction hv with
  | start hp hq => rcases h with h | h <;> simp_all
  | move _ _ _ ih => exact ih

/-- A move of the product takes a path in either automaton. -/
theorem mem_productMoves (hA : A.Valid) (hB : B.Valid) :
    (c, (p', q')) ∈ A.productMoves B (p, q) ↔ A.Path p [c] p' ∧ B.Path q [c] q' := by
  rw [mem_pairMoves, mem_edges_removeEpsilon_iff hA, mem_edges_removeEpsilon_iff hB]
  refine and_iff_right_of_imp fun h => ?_
  exact OrderedSet.mem_inter.mpr ⟨path_symbol_mem hA h.1 c List.mem_cons_self,
    path_symbol_mem hB h.2 c List.mem_cons_self⟩

/-- **The search finds the pairs that are reached** and no others. -/
theorem reaches_productMoves_iff (hA : A.Valid) (hB : B.Valid) (hp : A.initial = some p)
    (hq : B.initial = some q) {v : State × State} :
    Search.Reaches (A.productMoves B) [(p, q)] v ↔ A.ReachablePair B v := by
  constructor
  · intro h
    induction h with
    | root h =>
      rw [List.mem_singleton.mp h]
      exact .start hp hq
    | step _ h ih =>
      obtain ⟨hl, hr⟩ := (mem_productMoves hA hB).mp h
      exact .move ih hl hr
  · intro h
    induction h with
    | start hp' hq' =>
      obtain rfl := Option.some.inj (hp.symm.trans hp')
      obtain rfl := Option.some.inj (hq.symm.trans hq')
      exact .root List.mem_cons_self
    | move _ hl hr ih => exact ih.step ((mem_productMoves hA hB).mpr ⟨hl, hr⟩)

/-! ## The automaton of these pairs -/

/-- An automaton without transitions on the empty word whose states are the pairs of states of `A`
and `B` that are reached, each under a name of its own. -/
structure ProductAutomaton (C A B : Automaton) (name : State × State → State) : Prop where
  valid : C.Valid
  hasEpsilon : C.hasEpsilon = false
  alphabet : C.alphabet = A.alphabet ∩ B.alphabet
  mem_states : ∀ r, r ∈ C.states ↔ ∃ v, A.ReachablePair B v ∧ name v = r
  injective : ∀ u v, A.ReachablePair B u → A.ReachablePair B v → name u = name v → u = v
  initial : ∀ r, C.initial = some r ↔
    ∃ p q, A.initial = some p ∧ B.initial = some q ∧ name (p, q) = r
  mem_finals : ∀ p q, A.ReachablePair B (p, q) →
    (name (p, q) ∈ C.finals ↔ A.languageFrom p [] ∧ B.languageFrom q [])
  /-- A transition on a symbol is a path in either automaton that spells it. -/
  transitions : ∀ p q, A.ReachablePair B (p, q) → ∀ c r, ⟨name (p, q), .symbol c, r⟩ ∈ C.edges ↔
    ∃ p' q', A.Path p [c] p' ∧ B.Path q [c] q' ∧ r = name (p', q')
  accessible : ∀ r ∈ C.states, C.Accessible r
  isDeterministic : A.isDeterministic = true → B.isDeterministic = true →
    C.isDeterministic = true

namespace ProductAutomaton

variable {name : State × State → State}

/-- **A pair means what both of its states mean.** -/
theorem languageFrom_name (h : C.ProductAutomaton A B name) : ∀ (w : Word) {p q : State},
    A.ReachablePair B (p, q) →
      (C.languageFrom (name (p, q)) w ↔ A.languageFrom p w ∧ B.languageFrom q w)
  | [], p, q, hv => by
    rw [languageFrom_nil_of_epsilonFree (hasEpsilon_eq_false_iff.mp h.hasEpsilon),
      h.mem_finals p q hv]
  | c :: w, p, q, hv => by
    rw [languageFrom_cons_of_epsilonFree (hasEpsilon_eq_false_iff.mp h.hasEpsilon),
      languageFrom_cons, languageFrom_cons]
    constructor
    · rintro ⟨r, he, hw⟩
      obtain ⟨p', q', hp, hq, rfl⟩ := (h.transitions p q hv c r).mp he
      obtain ⟨hwp, hwq⟩ := (h.languageFrom_name w (hv.move hp hq)).mp hw
      exact ⟨⟨p', hp, hwp⟩, q', hq, hwq⟩
    · rintro ⟨⟨p', hp, hwp⟩, q', hq, hwq⟩
      exact ⟨name (p', q'), (h.transitions p q hv c _).mpr ⟨p', q', hp, hq, rfl⟩,
        (h.languageFrom_name w (hv.move hp hq)).mpr ⟨hwp, hwq⟩⟩

theorem language_iff (h : C.ProductAutomaton A B name) (w : Word) :
    C.language w ↔ A.language w ∧ B.language w := by
  rw [Automaton.language_iff, Automaton.language_iff, Automaton.language_iff]
  constructor
  · rintro ⟨r, hr, hw⟩
    obtain ⟨p, q, hp, hq, rfl⟩ := (h.initial r).mp hr
    obtain ⟨hwp, hwq⟩ := (h.languageFrom_name w (.start hp hq)).mp hw
    exact ⟨⟨p, hp, hwp⟩, q, hq, hwq⟩
  · rintro ⟨⟨p, hp, hwp⟩, q, hq, hwq⟩
    exact ⟨name (p, q), (h.initial _).mpr ⟨p, q, hp, hq, rfl⟩,
      (h.languageFrom_name w (.start hp hq)).mpr ⟨hwp, hwq⟩⟩

/-- A product accepts the words that both automata accept. -/
theorem accepts_eq (h : C.ProductAutomaton A B name) (w : Word) :
    C.accepts w = (A.accepts w && B.accepts w) := by
  rw [Bool.eq_iff_iff, Bool.and_eq_true, accepts_iff, accepts_iff, accepts_iff]
  exact h.language_iff w

end ProductAutomaton

/-- Without both initial states there are no pairs. -/
theorem void_productAutomaton (hA : A.Valid) (h : A.initial = none ∨ B.initial = none)
    (name : State × State → State) :
    (void (A.alphabet ∩ B.alphabet)).ProductAutomaton A B name where
  valid := void_valid fun hε => hA.epsilon_not_mem (OrderedSet.mem_inter.mp hε).1
  hasEpsilon := rfl
  alphabet := rfl
  mem_states r := iff_of_false (OrderedSet.not_mem_empty r) fun ⟨v, hv, _⟩ =>
    not_reachablePair_of_initial_eq_none h v hv
  injective u _ hu := absurd hu (not_reachablePair_of_initial_eq_none h u)
  initial r := iff_of_false (by simp [void]) fun ⟨_, _, hp, hq, _⟩ =>
    not_reachablePair_of_initial_eq_none h _ (.start hp hq)
  mem_finals _ _ hv := absurd hv (not_reachablePair_of_initial_eq_none h _)
  transitions _ _ hv := absurd hv (not_reachablePair_of_initial_eq_none h _)
  accessible r hr := absurd hr (OrderedSet.not_mem_empty r)
  isDeterministic _ _ := isDeterministic_iff.mpr (void_deterministic _)

/-- A picture of the pairs that can be reached is a product. -/
theorem Depicts.productAutomaton {name : State × State → State} {accepting : State × State → Bool}
    (hA : A.Valid) (hB : B.Valid) (hp : A.initial = some p) (hq : B.initial = some q)
    (halph : C.alphabet = A.alphabet ∩ B.alphabet)
    (haccepting : ∀ v, accepting v = true ↔
      v.1 ∈ A.removeEpsilon.finals ∧ v.2 ∈ B.removeEpsilon.finals)
    (h : C.Depicts (A.productMoves B) accepting (p, q) name) :
    C.ProductAutomaton A B name := by
  have hreach {v : State × State} := reaches_productMoves_iff hA hB hp hq (v := v)
  have hinitial : C.initial = some (name (p, q)) := h.initial
  constructor
  case valid =>
    refine h.valid (fun hε => ?_) fun v c w hcw => ?_
    · rw [halph] at hε
      exact hA.epsilon_not_mem (OrderedSet.mem_inter.mp hε).1
    · rw [halph]
      exact (mem_pairMoves.mp hcw).1
  case hasEpsilon => exact hasEpsilon_eq_false_iff.mpr h.not_epsilon
  case alphabet => exact halph
  case mem_states =>
    intro r
    rw [h.mem_states]
    exact exists_congr fun v => and_congr_left fun _ => hreach
  case injective => exact fun u v hu hv => h.injective u v (hreach.mpr hu) (hreach.mpr hv)
  case initial =>
    intro r
    rw [hinitial, hp, hq]
    simp
  case mem_finals =>
    intro p q hv
    rw [h.mem_finals_name (hreach.mpr hv), haccepting, mem_finals_removeEpsilon_iff hA,
      mem_finals_removeEpsilon_iff hB]
  case transitions =>
    intro p q hv c r
    rw [h.mem_edges_name (hreach.mpr hv)]
    constructor
    · rintro ⟨d, ⟨p', q'⟩, hd, hm, rfl⟩
      cases hd
      obtain ⟨hl, hr⟩ := (mem_productMoves hA hB).mp hm
      exact ⟨p', q', hl, hr, rfl⟩
    · rintro ⟨p', q', hl, hr, rfl⟩
      exact ⟨c, _, rfl, (mem_productMoves hA hB).mpr ⟨hl, hr⟩, rfl⟩
  case accessible => exact fun r hr => h.accessible hr
  case isDeterministic =>
    intro hAd hBd
    rw [isDeterministic_iff] at hAd hBd ⊢
    refine h.deterministic fun v c w w' hw hw' => ?_
    obtain ⟨hl, hr⟩ := (mem_productMoves hA hB).mp hw
    obtain ⟨hl', hr'⟩ := (mem_productMoves hA hB).mp hw'
    exact Prod.ext (path_unique hAd hl hl') (path_unique hBd hr hr')

/-- The intersection of two automata has the pairs that are reached as its states. -/
theorem intersection_productAutomaton (hA : A.Valid) (hB : B.Valid) :
    ∃ name, (A.intersection B).ProductAutomaton A B name := by
  by_cases h : A.initial = none ∨ B.initial = none
  · rw [intersection_of_initial_eq_none h]
    exact ⟨fun v => v.1, void_productAutomaton hA h _⟩
  · rw [not_or, ← ne_eq, Option.ne_none_iff_exists'] at h
    obtain ⟨⟨p, hp⟩, hq⟩ := h
    obtain ⟨q, hq⟩ := Option.ne_none_iff_exists'.mp hq
    obtain ⟨name, h⟩ := intersection_depicts hA hB hp hq
    refine ⟨name, h.productAutomaton hA hB hp hq (alphabet_intersection A B) fun v => ?_⟩
    rw [Bool.and_eq_true, isFinal, isFinal, decide_eq_true_eq, decide_eq_true_eq]

theorem intersection_language (hA : A.Valid) (hB : B.Valid) {w : Word} :
    (A.intersection B).language w ↔ A.language w ∧ B.language w := by
  obtain ⟨_, h⟩ := intersection_productAutomaton hA hB
  exact h.language_iff w

/-- **The product**: the intersection of two automata accepts the words that both accept, and its
states are the pairs of states that are reached. -/
theorem exists_productAutomaton_intersection (hA : A.Valid) (hB : B.Valid) :
    (∀ w, (A.intersection B).accepts w = (A.accepts w && B.accepts w)) ∧
      ∃ name, (A.intersection B).ProductAutomaton A B name := by
  obtain ⟨name, h⟩ := intersection_productAutomaton hA hB
  exact ⟨h.accepts_eq, name, h⟩

/-- The automaton with one transition, on `x`, from its initial state `p` to its final state
`q`. -/
def oneStep (p q : State) : Automaton where
  states := .ofList [p, q]
  alphabet := .ofList ['x']
  edges := .ofList [⟨p, .symbol 'x', q⟩]
  initial := some p
  finals := .ofList [q]

theorem path_oneStep (p q : State) : (oneStep p q).Path p ['x'] q :=
  .symbol (by simp [oneStep]) (.refl q)

/-- The pair of `a` and `b,c` and the pair of `a,b` and `c` are suggested one name, and are
different states of a product. -/
theorem pair_name_ne_name_of_commas :
    State.ofPair ⟨"a"⟩ ⟨"b,c"⟩ = State.ofPair ⟨"a,b"⟩ ⟨"c"⟩ ∧
      ∃ name : State × State → State,
        name (⟨"a"⟩, ⟨"b,c"⟩) ∈
          ((oneStep ⟨"a"⟩ ⟨"a,b"⟩).intersection (oneStep ⟨"b,c"⟩ ⟨"c"⟩)).states ∧
        name (⟨"a,b"⟩, ⟨"c"⟩) ∈
          ((oneStep ⟨"a"⟩ ⟨"a,b"⟩).intersection (oneStep ⟨"b,c"⟩ ⟨"c"⟩)).states ∧
        name (⟨"a"⟩, ⟨"b,c"⟩) ≠ name (⟨"a,b"⟩, ⟨"c"⟩) := by
  obtain ⟨-, name, h⟩ := exists_productAutomaton_intersection (A := oneStep ⟨"a"⟩ ⟨"a,b"⟩)
    (B := oneStep ⟨"b,c"⟩ ⟨"c"⟩) (by decide) (by decide)
  have hstart : (oneStep ⟨"a"⟩ ⟨"a,b"⟩).ReachablePair (oneStep ⟨"b,c"⟩ ⟨"c"⟩)
      (⟨"a"⟩, ⟨"b,c"⟩) := .start rfl rfl
  have hnext := hstart.move (path_oneStep _ _) (path_oneStep _ _)
  refine ⟨by decide, name, (h.mem_states _).mpr ⟨_, hstart, rfl⟩,
    (h.mem_states _).mpr ⟨_, hnext, rfl⟩, fun he => ?_⟩
  exact absurd (h.injective _ _ hstart hnext he) (by decide)

end RegularLanguages.Automaton
