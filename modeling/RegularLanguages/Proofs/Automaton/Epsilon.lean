import RegularLanguages.Automaton.Epsilon
import RegularLanguages.Proofs.Automaton.Determinization
import RegularLanguages.Proofs.Automaton.Trails

/-!
# What is left without transitions on the empty word

A trail that spells one symbol takes transitions on the empty word, then one on the symbol, and
then transitions on the empty word again; cycles may be gone around at either place. When the
transitions on the empty word are removed, each of these trails becomes one transition. As every
word is read symbol by symbol, no state changes its meaning, also where the word ends with
transitions on the empty word: such states have become final.

Results:
* `path_singleton_iff_exists_trail`: the trails that spell one symbol.
* `mem_edges_removeEpsilon_iff`, `mem_finals_removeEpsilon_iff`: what is left, in terms of paths.
* **`removeEpsilon_valid`**.
* **`languageFrom_removeEpsilon_iff`**: every state keeps the words that lead from it to a final
  state.
* **`isEpsilonRemoval_removeEpsilon`**: what is removed and what is kept.
-/

namespace RegularLanguages

theorem Label.symbol?_eq_none_iff {a : Label} : a.symbol? = none ↔ a = .epsilon := by
  cases a <;> simp [Label.symbol?]

theorem Label.symbol?_eq_some_iff {a : Label} {c : Char} : a.symbol? = some c ↔ a = .symbol c := by
  cases a <;> simp [Label.symbol?]

namespace Automaton

variable {A : Automaton} {p q : State} {c : Char} {e : Edge}

/-! ## Trails that spell one symbol -/

theorem spelled_eq_nil_iff {es : List Edge} : spelled es = [] ↔ ∀ e ∈ es, e.label = .epsilon := by
  simp only [spelled, List.filterMap_eq_nil_iff, Label.symbol?_eq_none_iff]

theorem spelled_eq_singleton_iff {es : List Edge} : spelled es = [c] ↔
    ∃ before e after, es = before ++ e :: after ∧ (∀ d ∈ before, d.label = .epsilon) ∧
      e.label = .symbol c ∧ ∀ d ∈ after, d.label = .epsilon := by
  simp only [spelled, List.filterMap_eq_cons_iff, List.filterMap_eq_nil_iff,
    Label.symbol?_eq_none_iff, Label.symbol?_eq_some_iff]

/-- A path that spells one symbol is a trail with one transition on it, and with transitions on
the empty word before and after. -/
theorem path_singleton_iff_exists_trail : A.Path p [c] q ↔
    ∃ before e after, A.Trail p (before ++ e :: after) q ∧ (∀ d ∈ before, d.label = .epsilon) ∧
      e.label = .symbol c ∧ ∀ d ∈ after, d.label = .epsilon := by
  rw [path_iff_exists_trail]
  constructor
  · rintro ⟨es, hes, hc⟩
    obtain ⟨before, e, after, rfl, h⟩ := spelled_eq_singleton_iff.mp hc
    exact ⟨before, e, after, hes, h⟩
  · rintro ⟨before, e, after, hes, h⟩
    exact ⟨_, hes, spelled_eq_singleton_iff.mpr ⟨before, e, after, rfl, h⟩⟩

theorem languageFrom_nil_iff_exists_trail : A.languageFrom q [] ↔
    ∃ es f, f ∈ A.finals ∧ A.Trail q es f ∧ ∀ e ∈ es, e.label = .epsilon := by
  simp only [languageFrom, path_iff_exists_trail, spelled_eq_nil_iff]
  constructor
  · rintro ⟨f, hf, es, h⟩
    exact ⟨es, f, hf, h⟩
  · rintro ⟨es, f, hf, h⟩
    exact ⟨f, hf, es, h⟩

/-! ## What is left -/

/-- The states that `q` moves to on `c`, with transitions on the empty word before and after. -/
def epsilonMoves (A : Automaton) (q : State) (c : Char) : OrderedSet State :=
  A.adjacency.closure (A.adjacency.step (A.adjacency.closure [q]) c)

theorem mem_edges_removeEpsilon : e ∈ A.removeEpsilon.edges ↔
    ∃ q ∈ A.states, ∃ c ∈ A.alphabet, ∃ p ∈ A.epsilonMoves q c, ⟨q, .symbol c, p⟩ = e := by
  simp only [removeEpsilon, OrderedSet.mem_ofList, List.mem_flatMap, List.mem_map, epsilonMoves,
    OrderedSet.mem_toList]
  constructor
  · rintro ⟨-, ⟨q, hq, rfl⟩, c, hc, p, hp, rfl⟩
    exact ⟨q, hq, c, hc, p, hp, rfl⟩
  · rintro ⟨q, hq, c, hc, p, hp, rfl⟩
    exact ⟨_, ⟨q, hq, rfl⟩, c, hc, p, hp, rfl⟩

theorem mem_finals_removeEpsilon : q ∈ A.removeEpsilon.finals ↔
    q ∈ A.states ∧ (A.adjacency.closure [q]).toList.any A.isFinal = true := by
  simp only [removeEpsilon, OrderedSet.mem_ofList, List.mem_map, List.mem_filter,
    OrderedSet.mem_toList]
  constructor
  · rintro ⟨-, ⟨⟨q, hq, rfl⟩, hf⟩, rfl⟩
    exact ⟨hq, hf⟩
  · rintro ⟨hq, hf⟩
    exact ⟨_, ⟨⟨q, hq, rfl⟩, hf⟩, rfl⟩

/-- The states that `q` moves to on `c` are those to which paths lead that spell it. -/
theorem mem_epsilonMoves : p ∈ A.epsilonMoves q c ↔ A.Path q [c] p := by
  rw [epsilonMoves, mem_closure_step_iff, path_cons_iff]
  simp only [mem_closure_iff, List.mem_singleton, exists_eq_left]
  constructor
  · rintro ⟨r, hr, r', he, hp⟩
    exact ⟨r, r', hr, he, hp⟩
  · rintro ⟨r, r', hr, he, hp⟩
    exact ⟨r, hr, r', he, hp⟩

theorem epsilonMoves_subset_states (hA : A.Valid) :
    ∀ p ∈ A.epsilonMoves q c, p ∈ A.states := by
  refine closure_subset_states hA fun p hp => ?_
  obtain ⟨r, -, he⟩ := mem_step_iff.mp hp
  exact hA.target_mem _ he

/-- The transitions that are left are the paths that spell one symbol. -/
theorem mem_edges_removeEpsilon_iff (hA : A.Valid) :
    ⟨q, .symbol c, p⟩ ∈ A.removeEpsilon.edges ↔ A.Path q [c] p := by
  rw [mem_edges_removeEpsilon, ← mem_epsilonMoves]
  constructor
  · rintro ⟨q', _, c', _, p', hp, he⟩
    cases he
    exact hp
  · intro hp
    have hpath := mem_epsilonMoves.mp hp
    have hq : q ∈ A.states := path_source_mem hA hpath (epsilonMoves_subset_states hA p hp)
    exact ⟨q, hq, c, path_symbol_mem hA hpath c List.mem_cons_self, p, hp, rfl⟩

theorem not_epsilon_removeEpsilon (A : Automaton) (p q : State) :
    ⟨p, .epsilon, q⟩ ∉ A.removeEpsilon.edges := by
  intro he
  obtain ⟨_, _, _, _, _, _, he⟩ := mem_edges_removeEpsilon.mp he
  exact absurd (congrArg Edge.label he) (by simp)

/-- A state is final without transitions on the empty word iff the empty word led from it to a
final state. -/
theorem mem_finals_removeEpsilon_iff (hA : A.Valid) :
    q ∈ A.removeEpsilon.finals ↔ A.languageFrom q [] := by
  have hclosure : (A.adjacency.closure [q]).toList.any A.isFinal = true ↔ A.languageFrom q [] := by
    simp only [List.any_eq_true, OrderedSet.mem_toList, mem_closure_iff, List.mem_singleton,
      exists_eq_left, isFinal, decide_eq_true_eq, languageFrom, and_comm (a := A.Path q [] _)]
  rw [mem_finals_removeEpsilon, hclosure]
  exact and_iff_right_of_imp fun h => CoAccessible.mem_states hA ⟨[], h⟩

/-- **Without transitions on the empty word an automaton stays valid.** -/
theorem removeEpsilon_valid (hA : A.Valid) : A.removeEpsilon.Valid where
  initial_mem := hA.initial_mem
  final_mem q hq := (mem_finals_removeEpsilon.mp hq).1
  source_mem e he := by
    obtain ⟨q, hq, c, -, p, -, rfl⟩ := mem_edges_removeEpsilon.mp he
    exact hq
  target_mem e he := by
    obtain ⟨q, -, c, -, p, hp, rfl⟩ := mem_edges_removeEpsilon.mp he
    exact epsilonMoves_subset_states hA p hp
  label_mem e he d hd := by
    obtain ⟨q, -, c, hc, p, -, rfl⟩ := mem_edges_removeEpsilon.mp he
    exact Label.symbol.inj hd ▸ hc
  epsilon_not_mem := hA.epsilon_not_mem

@[simp] theorem alphabet_removeEpsilon (A : Automaton) :
    A.removeEpsilon.alphabet = A.alphabet := rfl

@[simp] theorem initial_removeEpsilon (A : Automaton) : A.removeEpsilon.initial = A.initial := rfl

/-! ## What the states mean -/

/-- **Every state keeps its meaning.** The induction is on the word: its end is read by the new
final states, each symbol in front by one of the new transitions. -/
theorem languageFrom_removeEpsilon_iff (hA : A.Valid) : ∀ (w : Word) (q : State),
    A.removeEpsilon.languageFrom q w ↔ A.languageFrom q w
  | [], q => by
    rw [languageFrom_nil_of_epsilonFree (not_epsilon_removeEpsilon A)]
    exact mem_finals_removeEpsilon_iff hA
  | c :: w, q => by
    rw [languageFrom_cons_of_epsilonFree (not_epsilon_removeEpsilon A), languageFrom_cons]
    refine exists_congr fun p => and_congr (mem_edges_removeEpsilon_iff hA) ?_
    exact languageFrom_removeEpsilon_iff hA w p

/-- `B` is `A` without transitions on the empty word. -/
structure EpsilonRemoval (B A : Automaton) : Prop where
  valid : B.Valid
  states : B.states = A.states
  alphabet : B.alphabet = A.alphabet
  initial : B.initial = A.initial
  hasEpsilon : B.hasEpsilon = false
  /-- A transition is on one symbol, and stands for a trail with one transition on this symbol and
  transitions on the empty word before and after. -/
  mem_edges : ∀ p c q, ⟨p, .symbol c, q⟩ ∈ B.edges ↔
    ∃ before e after, A.Trail p (before ++ e :: after) q ∧ (∀ d ∈ before, d.label = .epsilon) ∧
      e.label = .symbol c ∧ ∀ d ∈ after, d.label = .epsilon
  /-- The final states are those from which transitions on the empty word lead to one. -/
  mem_finals : ∀ q, q ∈ B.finals ↔
    ∃ es f, f ∈ A.finals ∧ A.Trail q es f ∧ ∀ e ∈ es, e.label = .epsilon
  languageFrom : ∀ q w, B.languageFrom q w ↔ A.languageFrom q w
  accepts : ∀ w, B.accepts w = A.accepts w

/-- **Removing the transitions on the empty word** keeps the states and what each of them means,
and makes every trail that spells one symbol a transition. -/
theorem isEpsilonRemoval_removeEpsilon (hA : A.Valid) : A.removeEpsilon.EpsilonRemoval A where
  valid := removeEpsilon_valid hA
  states := rfl
  alphabet := rfl
  initial := rfl
  hasEpsilon := hasEpsilon_eq_false_iff.mpr (not_epsilon_removeEpsilon A)
  mem_edges _ _ _ := (mem_edges_removeEpsilon_iff hA).trans path_singleton_iff_exists_trail
  mem_finals _ := (mem_finals_removeEpsilon_iff hA).trans languageFrom_nil_iff_exists_trail
  languageFrom q w := languageFrom_removeEpsilon_iff hA w q
  accepts w := accepts_eq_iff.mpr
    (language_of_initial_eq (initial_removeEpsilon A)
      fun i _ => languageFrom_removeEpsilon_iff hA w i)

/-- Transitions on the empty word lead from `p` to `q` and back, and from `r` to the final state
`s`. An `a` leads from `q` to `r`. -/
def circleThenStep : Automaton where
  states := .ofList [⟨"p"⟩, ⟨"q"⟩, ⟨"r"⟩, ⟨"s"⟩]
  alphabet := .ofList ['a']
  edges := .ofList [⟨⟨"p"⟩, .epsilon, ⟨"q"⟩⟩, ⟨⟨"q"⟩, .epsilon, ⟨"p"⟩⟩,
    ⟨⟨"q"⟩, .symbol 'a', ⟨"r"⟩⟩, ⟨⟨"r"⟩, .epsilon, ⟨"s"⟩⟩]
  initial := some ⟨"p"⟩
  finals := .ofList [⟨"s"⟩]

/-- Without transitions on the empty word, `a` leads from `p` to `s` at once, `r` is final and `p`
is not. -/
theorem removeEpsilon_circleThenStep :
    circleThenStep.removeEpsilon.hasEpsilon = false ∧
      ⟨⟨"p"⟩, .symbol 'a', ⟨"s"⟩⟩ ∈ circleThenStep.removeEpsilon.edges ∧
      ⟨"r"⟩ ∈ circleThenStep.removeEpsilon.finals ∧
      ⟨"p"⟩ ∉ circleThenStep.removeEpsilon.finals := by
  have h := isEpsilonRemoval_removeEpsilon (A := circleThenStep) (by decide)
  refine ⟨h.hasEpsilon, (h.mem_edges _ _ _).mpr ?edge, (h.mem_finals _).mpr ?final, fun hp => ?_⟩
  case edge =>
    exact ⟨[⟨⟨"p"⟩, .epsilon, ⟨"q"⟩⟩], ⟨⟨"q"⟩, .symbol 'a', ⟨"r"⟩⟩, [⟨⟨"r"⟩, .epsilon, ⟨"s"⟩⟩],
      by decide⟩
  case final => exact ⟨[⟨⟨"r"⟩, .epsilon, ⟨"s"⟩⟩], ⟨"s"⟩, by decide⟩
  · obtain ⟨f, hf, hpath⟩ := languageFrom_nil_iff_exists_trail.mpr ((h.mem_finals _).mp hp)
    -- the circle is not left without reading
    have hstep : ∀ e ∈ circleThenStep.edges.toList, e.source = ⟨"p"⟩ ∨ e.source = ⟨"q"⟩ →
        e.label = .epsilon → e.target = ⟨"p"⟩ ∨ e.target = ⟨"q"⟩ := by decide
    have hcircle : f = ⟨"p"⟩ ∨ f = ⟨"q"⟩ :=
      hpath.stays (P := fun r => r = ⟨"p"⟩ ∨ r = ⟨"q"⟩) (fun _ _ hr he => hstep _ he hr rfl)
        (Or.inl rfl)
    rcases hcircle with rfl | rfl
    · exact absurd hf (by decide)
    · exact absurd hf (by decide)

end Automaton

end RegularLanguages
