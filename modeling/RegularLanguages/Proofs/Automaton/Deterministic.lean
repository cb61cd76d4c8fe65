import RegularLanguages.Proofs.Automaton.Acceptance
import RegularLanguages.Proofs.OrderedSet

/-!
# Deterministic and complete automata

What the two checks `isDeterministic` and `isComplete` mean for paths: in a deterministic
automaton a word leads from a state to at most one state, in a valid complete one every word
over the alphabet leads to some state. `Total` collects the three promises.

The words that lead from a state to a final state are the meaning of the state. In a
deterministic automaton they are determined along every path (`languageFrom_append`), and in an
automaton whose states all differ in meaning (`Separated`) paths can be compared by their ends.

Results:
* `isDeterministic_iff`, `isComplete_iff`: the checks decide the properties.
* **`path_unique`**, **`exists_path`**: at most one and at least one path.
* `size_le_of_separated`: an accessible separated automaton has no more states than a total
  automaton for the same language.
-/

namespace RegularLanguages

namespace Automaton

variable {A B : Automaton}

/-! ## Valid automata -/

theorem valid_iff : A.Valid ↔
    (∀ q ∈ A.initial.toList, q ∈ A.states) ∧ (∀ q ∈ A.finals.toList, q ∈ A.states) ∧
      (∀ e ∈ A.edges.toList, e.source ∈ A.states ∧ e.target ∈ A.states ∧
        e.label.symbol?.all (· ∈ A.alphabet) = true) ∧ epsilonChar ∉ A.alphabet := by
  have hsymbol (a : Label) : a.symbol?.all (· ∈ A.alphabet) = true ↔
      ∀ c, a = .symbol c → c ∈ A.alphabet := by
    cases a <;> simp [Label.symbol?]
  simp only [hsymbol, Option.mem_toList]
  constructor
  · intro h
    exact ⟨h.initial_mem, h.final_mem,
      fun e he => ⟨h.source_mem e he, h.target_mem e he, h.label_mem e he⟩, h.epsilon_not_mem⟩
  · rintro ⟨hi, hf, he, hε⟩
    exact ⟨hi, hf, fun e h => (he e h).1, fun e h => (he e h).2.1, fun e h => (he e h).2.2, hε⟩

instance : Decidable A.Valid := decidable_of_iff' _ valid_iff

theorem path_target_mem (hA : A.Valid) {p q : State} {w : Word} (h : A.Path p w q)
    (hp : p ∈ A.states) : q ∈ A.states :=
  h.invariant (P := (· ∈ A.states)) (fun e he _ => hA.target_mem e he) hp

theorem path_source_mem (hA : A.Valid) {p q : State} {w : Word} (h : A.Path p w q)
    (hq : q ∈ A.states) : p ∈ A.states := by
  cases h with
  | refl => exact hq
  | epsilon he _ => exact hA.source_mem _ he
  | symbol he _ => exact hA.source_mem _ he

theorem path_symbol_mem (hA : A.Valid) {p q : State} {w : Word} (h : A.Path p w q) :
    ∀ c ∈ w, c ∈ A.alphabet := by
  induction h with
  | refl => simp
  | epsilon _ _ ih => exact ih
  | symbol he _ ih =>
    intro d hd
    rcases List.mem_cons.mp hd with rfl | hd
    · exact hA.label_mem _ he d rfl
    · exact ih d hd

/-- Some path leads from the initial state to the state. -/
def Accessible (A : Automaton) (q : State) : Prop := ∃ p w, A.initial = some p ∧ A.Path p w q

/-- Some path leads from the state to a final state. -/
def CoAccessible (A : Automaton) (q : State) : Prop := ∃ w, A.languageFrom q w

theorem accessible_initial {p : State} (hp : A.initial = some p) : A.Accessible p :=
  ⟨p, [], hp, .refl p⟩

theorem Accessible.path {p q : State} {w : Word} (hp : A.Accessible p) (h : A.Path p w q) :
    A.Accessible q := by
  obtain ⟨i, u, hi, hu⟩ := hp
  exact ⟨i, u ++ w, hi, hu.append h⟩

theorem Accessible.mem_states (hA : A.Valid) {q : State} (hq : A.Accessible q) :
    q ∈ A.states := by
  obtain ⟨i, w, hi, hw⟩ := hq
  exact path_target_mem hA hw (hA.initial_mem i hi)

theorem CoAccessible.mem_states (hA : A.Valid) {q : State} (hq : A.CoAccessible q) :
    q ∈ A.states := by
  obtain ⟨w, f, hf, hw⟩ := hq
  exact path_source_mem hA hw (hA.final_mem f hf)

/-- A map that takes the initial state to the initial state and paths to paths takes accessible
states to accessible states. -/
theorem Accessible.map {f : State → State} {q : State} (hq : A.Accessible q)
    (hi : B.initial = A.initial.map f)
    (hpath : ∀ p q w, A.Path p w q → B.Path (f p) w (f q)) : B.Accessible (f q) := by
  obtain ⟨i, w, hiA, hw⟩ := hq
  exact ⟨f i, w, by rw [hi, hiA]; rfl, hpath i q w hw⟩

/-! ## Deterministic automata -/

/-- No transition is on the empty word, and a state has at most one target on a symbol. -/
structure Deterministic (A : Automaton) : Prop where
  not_epsilon : ∀ p q, ⟨p, .epsilon, q⟩ ∉ A.edges
  target_unique : ∀ {p a q q'}, ⟨p, a, q⟩ ∈ A.edges → ⟨p, a, q'⟩ ∈ A.edges → q = q'

theorem hasEpsilon_eq_false_iff :
    A.hasEpsilon = false ↔ ∀ p q, ⟨p, .epsilon, q⟩ ∉ A.edges := by
  simp only [hasEpsilon, List.any_eq_false, decide_eq_true_eq]
  exact ⟨fun h p q he => h _ he rfl, fun h e he hl => h e.source e.target (hl ▸ he)⟩

theorem isDeterministic_iff : A.isDeterministic = true ↔ A.Deterministic := by
  unfold isDeterministic
  rw [Bool.and_eq_true, Bool.not_eq_true', hasEpsilon_eq_false_iff]
  simp only [List.all_eq_true, Bool.or_eq_true, Bool.not_eq_true', Bool.and_eq_false_iff,
    decide_eq_false_iff_not, decide_eq_true_eq]
  constructor
  · rintro ⟨hε, hu⟩
    refine ⟨hε, fun {p a q q'} h h' => ?_⟩
    rcases hu _ h _ h' with (hs | hl) | ht
    · exact absurd rfl hs
    · exact absurd rfl hl
    · exact ht
  · intro h
    refine ⟨h.not_epsilon, fun e he f hf => ?_⟩
    by_cases hs : e.source = f.source
    · by_cases hl : e.label = f.label
      · refine Or.inr (h.target_unique he ?_)
        rw [hs, hl]
        exact hf
      · exact Or.inl (Or.inr hl)
    · exact Or.inl (Or.inl hs)

section EpsilonFree

variable (hA : ∀ p q, ⟨p, .epsilon, q⟩ ∉ A.edges)
include hA

/-- Without transitions on the empty word, the empty word leads nowhere else. -/
theorem eq_of_path_nil {p q : State} (h : A.Path p [] q) : p = q := by
  cases h with
  | refl => rfl
  | epsilon he _ => exact absurd he (hA _ _)

theorem languageFrom_nil_of_epsilonFree {p : State} : A.languageFrom p [] ↔ p ∈ A.finals := by
  constructor
  · rintro ⟨q, hq, h⟩
    exact eq_of_path_nil hA h ▸ hq
  · intro h
    exact ⟨p, h, .refl p⟩

/-- Without transitions on the empty word, a nonempty word is read by one transition on its
first symbol and a path for the rest. -/
theorem path_cons_iff_of_epsilonFree {p r : State} {c : Char} {w : Word} :
    A.Path p (c :: w) r ↔ ∃ q, ⟨p, .symbol c, q⟩ ∈ A.edges ∧ A.Path q w r := by
  rw [path_cons_iff]
  constructor
  · rintro ⟨q, q', hq, he, h⟩
    obtain rfl := eq_of_path_nil hA hq
    exact ⟨q', he, h⟩
  · rintro ⟨q, he, h⟩
    exact ⟨p, q, .refl p, he, h⟩

theorem languageFrom_cons_of_epsilonFree {p : State} {c : Char} {w : Word} :
    A.languageFrom p (c :: w) ↔ ∃ q, ⟨p, .symbol c, q⟩ ∈ A.edges ∧ A.languageFrom q w := by
  constructor
  · rintro ⟨f, hf, h⟩
    obtain ⟨q, he, h⟩ := (path_cons_iff_of_epsilonFree hA).mp h
    exact ⟨q, he, f, hf, h⟩
  · rintro ⟨q, he, f, hf, h⟩
    exact ⟨f, hf, .symbol he h⟩

end EpsilonFree

section Deterministic

variable (hA : A.Deterministic)
include hA

theorem path_nil_iff {p q : State} : A.Path p [] q ↔ p = q := by
  constructor
  · exact eq_of_path_nil hA.not_epsilon
  · rintro rfl
    exact .refl p

/-- A nonempty word is read by one transition on its first symbol and a path for the rest. -/
theorem path_cons_iff_edge {p r : State} {c : Char} {w : Word} :
    A.Path p (c :: w) r ↔ ∃ q, ⟨p, .symbol c, q⟩ ∈ A.edges ∧ A.Path q w r :=
  path_cons_iff_of_epsilonFree hA.not_epsilon

/-- **A word leads to at most one state.** -/
theorem path_unique {q q' : State} : ∀ {w : Word} {p : State}, A.Path p w q → A.Path p w q' →
    q = q'
  | [], _, h, h' => ((path_nil_iff hA).mp h).symm.trans ((path_nil_iff hA).mp h')
  | c :: w, p, h, h' => by
    obtain ⟨r, he, hr⟩ := (path_cons_iff_edge hA).mp h
    obtain ⟨r', he', hr'⟩ := (path_cons_iff_edge hA).mp h'
    obtain rfl := hA.target_unique he he'
    exact path_unique hr hr'

theorem languageFrom_nil {p : State} : A.languageFrom p [] ↔ p ∈ A.finals :=
  languageFrom_nil_of_epsilonFree hA.not_epsilon

/-- What follows a path from a state is what its end means. -/
theorem languageFrom_append {p q : State} {u : Word} (hu : A.Path p u q) {v : Word} :
    A.languageFrom p (u ++ v) ↔ A.languageFrom q v := by
  constructor
  · rintro ⟨r, hr, h⟩
    obtain ⟨q', hu', hv⟩ := path_append_iff.mp h
    obtain rfl := path_unique hA hu hu'
    exact ⟨r, hr, hv⟩
  · rintro ⟨r, hr, h⟩
    exact ⟨r, hr, hu.append h⟩

theorem languageFrom_cons_of_edge {p q : State} {c : Char} (he : ⟨p, .symbol c, q⟩ ∈ A.edges)
    {w : Word} : A.languageFrom p (c :: w) ↔ A.languageFrom q w :=
  languageFrom_append hA (.symbol he (.refl q))

theorem successor?_of_edge {p q : State} {c : Char} (he : ⟨p, .symbol c, q⟩ ∈ A.edges) :
    A.successor? p c = some q := by
  have hs : A.successors p (.symbol c) = .ofList [q] := by
    refine OrderedSet.ext_mem fun r => ?_
    rw [mem_successors, OrderedSet.mem_ofList, List.mem_singleton]
    constructor
    · exact fun hr => hA.target_unique hr he
    · rintro rfl
      exact he
  unfold successor?
  rw [hs]
  rfl

end Deterministic

/-! ## Complete automata -/

/-- Every state has a transition on every symbol. -/
def Complete (A : Automaton) : Prop :=
  ∀ q ∈ A.states, ∀ c ∈ A.alphabet, ∃ p, ⟨q, .symbol c, p⟩ ∈ A.edges

theorem hasMove_iff {q : State} {c : Char} :
    A.hasMove q c = true ↔ ∃ p, ⟨q, .symbol c, p⟩ ∈ A.edges := by
  simp only [hasMove, List.any_eq_true, decide_eq_true_eq]
  constructor
  · rintro ⟨⟨s, a, p⟩, he, rfl, rfl⟩
    exact ⟨p, he⟩
  · rintro ⟨p, he⟩
    exact ⟨_, he, rfl, rfl⟩

theorem isComplete_iff : A.isComplete = true ↔ A.Complete := by
  simp only [isComplete, List.all_eq_true, hasMove_iff]
  exact Iff.rfl

/-- What a complete deterministic automaton promises. -/
structure Total (A : Automaton) : Prop where
  valid : A.Valid
  deterministic : A.Deterministic
  complete : A.Complete

/-- **Every word over the alphabet leads to some state.** -/
theorem exists_path (hA : A.Total) : ∀ {w : Word} {p : State}, p ∈ A.states →
    (∀ c ∈ w, c ∈ A.alphabet) → ∃ q ∈ A.states, A.Path p w q
  | [], p, hp, _ => ⟨p, hp, .refl p⟩
  | c :: w, p, hp, hw => by
    obtain ⟨r, he⟩ := hA.complete p hp c (hw c List.mem_cons_self)
    obtain ⟨q, hq, h⟩ := exists_path hA (hA.valid.target_mem _ he)
      fun d hd => hw d (List.mem_cons_of_mem c hd)
    exact ⟨q, hq, .symbol he h⟩

/-! ## Comparing states by their meaning -/

/-- The same words lead from both states to a final state. -/
def Equivalent (A : Automaton) (p q : State) : Prop :=
  ∀ w, A.languageFrom p w ↔ A.languageFrom q w

/-- Any two different states are told apart by some word. -/
def Separated (A : Automaton) : Prop :=
  ∀ p ∈ A.states, ∀ q ∈ A.states, A.Equivalent p q → p = q

theorem Separated.exists_word (hA : A.Separated) {p q : State} (hp : p ∈ A.states)
    (hq : q ∈ A.states) (hpq : p ≠ q) : ∃ w, ¬ (A.languageFrom p w ↔ A.languageFrom q w) := by
  by_contra hn
  rw [not_exists] at hn
  exact hpq (hA p hp q hq fun w => not_not.mp (hn w))

/-- A separated automaton has at most one state from which no final state can be reached. -/
theorem eq_of_not_coAccessible (hA : A.Separated) {p q : State} (hp : p ∈ A.states)
    (hq : q ∈ A.states) (hp' : ¬ A.CoAccessible p) (hq' : ¬ A.CoAccessible q) : p = q :=
  hA p hp q hq fun w => iff_of_false (fun h => hp' ⟨w, h⟩) fun h => hq' ⟨w, h⟩

/-- A path of `A` from its initial state can be followed in a total automaton over the same
alphabet that has the same language, and ends there in a state of the same meaning. -/
theorem exists_state_of_path (hA : A.Valid) (hAd : A.Deterministic) (hB : B.Total)
    (halph : B.alphabet = A.alphabet) (hlang : ∀ w, A.language w ↔ B.language w) {i j p : State}
    (hi : A.initial = some i) (hj : B.initial = some j) {u : Word} (hu : A.Path i u p) :
    ∃ q ∈ B.states, B.Path j u q ∧ ∀ w, A.languageFrom p w ↔ B.languageFrom q w := by
  obtain ⟨q, hq, hv⟩ := exists_path hB (hB.valid.initial_mem j hj) fun c hc =>
    halph.symm ▸ path_symbol_mem hA hu c hc
  refine ⟨q, hq, hv, fun w => ?_⟩
  rw [← languageFrom_append hAd hu, ← languageFrom_append hB.deterministic hv,
    ← language_eq_languageFrom hi, ← language_eq_languageFrom hj]
  exact hlang _

/-- **An accessible separated automaton is as small as possible**: its states have pairwise
different partners in every total automaton for the same language. -/
theorem size_le_of_separated (hA : A.Valid) (hAd : A.Deterministic)
    (hacc : ∀ q ∈ A.states, A.Accessible q) (hsep : A.Separated) (hB : B.Total)
    (halph : B.alphabet = A.alphabet) (hlang : ∀ w, A.language w ↔ B.language w) {j : State}
    (hj : B.initial = some j) : A.size ≤ B.size := by
  refine OrderedSet.size_le_of_partners
    (R := fun p q => ∀ w, A.languageFrom p w ↔ B.languageFrom q w) ?_ ?_
  · intro p hp
    obtain ⟨i, u, hi, hu⟩ := hacc p hp
    obtain ⟨q, hq, -, hw⟩ := exists_state_of_path hA hAd hB halph hlang hi hj hu
    exact ⟨q, hq, hw⟩
  · intro p hp p' hp' q h h'
    exact hsep p hp p' hp' fun w => (h w).trans (h' w).symm

end Automaton

end RegularLanguages
